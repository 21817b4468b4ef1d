import Mathlib.Data.List.Basic
import Mathlib.Data.List.Induction
import RuleGrounding.Proofs.Grounding.Meaning

/-!
# Which formulas are clauses

The number of conjunctions of a normal form can be counted on the formula: conjunctions multiply,
disjunctions add, and negations exchange the two. A rule is refused exactly if the negation of its
formula does not count one. Nested disjunctions of literals count one, and the clause of their rule
has the complements of these literals, each where it first came.
-/

namespace RuleGrounding

/-- The literal that requires what this one denies. -/
def Literal.complement (l : Literal) : Literal := ⟨l.atom, !l.negated⟩

namespace Formula

mutual

/-- The number of conjunctions that a formula, or its negation, stands for. -/
def conjunctionCount (negated : Bool) : Formula → Nat
  | .atom _ => 1
  | .negation f => f.conjunctionCount (!negated)
  | .conjunction fs => if negated then sumOfCounts negated fs else productOfCounts negated fs
  | .disjunction fs => if negated then productOfCounts negated fs else sumOfCounts negated fs

/-- The product of these numbers for several formulas. -/
def productOfCounts (negated : Bool) : List Formula → Nat
  | [] => 1
  | f :: fs => f.conjunctionCount negated * productOfCounts negated fs

/-- The sum of these numbers for several formulas. -/
def sumOfCounts (negated : Bool) : List Formula → Nat
  | [] => 0
  | f :: fs => f.conjunctionCount negated + sumOfCounts negated fs

end

mutual

/-- Whether a formula, or its negation, is a nested disjunction of literals: only disjunctions
stand under an even number of negations, and only conjunctions under an odd one. -/
def isClause (negated : Bool) : Formula → Bool
  | .atom _ => true
  | .negation f => f.isClause (!negated)
  | .conjunction fs => negated && allClauses negated fs
  | .disjunction fs => !negated && allClauses negated fs

/-- Whether several formulas are. -/
def allClauses (negated : Bool) : List Formula → Bool
  | [] => true
  | f :: fs => f.isClause negated && allClauses negated fs

end

mutual

/-- The literals of a formula, or of its negation, from left to right: an atom is denied under an
odd number of negations. -/
def literals (negated : Bool) : Formula → List Literal
  | .atom a => [⟨a, negated⟩]
  | .negation f => f.literals (!negated)
  | .conjunction fs => listLiterals negated fs
  | .disjunction fs => listLiterals negated fs

/-- The literals of several formulas. -/
def listLiterals (negated : Bool) : List Formula → List Literal
  | [] => []
  | f :: fs => f.literals negated ++ listLiterals negated fs

end

end Formula

section Distinct

variable {α : Type} [DecidableEq α] {xs : List α} {x : α}

theorem distinct_concat_of_mem (h : x ∈ xs) : distinct (xs ++ [x]) = distinct xs := by
  rw [distinct, List.foldl_append]
  exact if_pos (mem_distinct.mpr h)

theorem distinct_concat_of_not_mem (h : x ∉ xs) :
    distinct (xs ++ [x]) = distinct xs ++ [x] := by
  rw [distinct, List.foldl_append]
  exact if_neg (mt mem_distinct.mp h)

/-- The elements that are taken once stand in the order in which they first came. -/
theorem pairwise_idxOf_distinct (xs : List α) :
    (distinct xs).Pairwise fun x y => xs.idxOf x < xs.idxOf y := by
  induction xs using List.reverseRecOn with
  | nil => exact List.Pairwise.nil
  | append_singleton xs x ih =>
    have hold : ∀ {y}, y ∈ distinct xs → (xs ++ [x]).idxOf y = xs.idxOf y := fun hy =>
      List.idxOf_append_of_mem (mem_distinct.mp hy)
    have hkept : (distinct xs).Pairwise fun y z => (xs ++ [x]).idxOf y < (xs ++ [x]).idxOf z :=
      ih.imp_of_mem fun hy hz h => by rwa [hold hy, hold hz]
    by_cases hx : x ∈ xs
    · rwa [distinct_concat_of_mem hx]
    · rw [distinct_concat_of_not_mem hx, List.pairwise_append]
      refine ⟨hkept, List.pairwise_singleton _ _, fun y hy z hz => ?_⟩
      rw [List.mem_singleton.mp hz, hold hy, List.idxOf_append_of_notMem hx]
      exact Nat.lt_add_right _ (List.idxOf_lt_length_of_mem (mem_distinct.mp hy))

end Distinct

section Counting

theorem NormalForm.length_product (left right : NormalForm) :
    (left.product right).length = left.length * right.length := by
  simp [product, List.length_flatMap, List.map_const']

namespace Formula

mutual

/-- A normal form has as many conjunctions as are counted on the formula. -/
theorem length_expand : ∀ (f : Formula) (negated : Bool),
    (f.expand negated).length = f.conjunctionCount negated
  | .atom a, negated => by
    rw [expand, conjunctionCount]
    rfl
  | .negation f, negated => by
    rw [expand, conjunctionCount]
    exact length_expand f (!negated)
  | .conjunction fs, negated => by
    rw [expand, conjunctionCount]
    split
    · exact length_expandSome fs negated
    · exact (length_expandAll fs negated [[]]).trans (Nat.one_mul _)
  | .disjunction fs, negated => by
    rw [expand, conjunctionCount]
    split
    · exact (length_expandAll fs negated [[]]).trans (Nat.one_mul _)
    · exact length_expandSome fs negated

/-- Conjoining further formulas multiplies. -/
theorem length_expandAll : ∀ (fs : List Formula) (negated : Bool) (acc : NormalForm),
    (expandAll negated acc fs).length = acc.length * productOfCounts negated fs
  | [], negated, acc => by
    rw [expandAll, productOfCounts, Nat.mul_one]
  | f :: fs, negated, acc => by
    rw [expandAll, length_expandAll fs negated, NormalForm.length_product,
      length_expand f negated, productOfCounts, Nat.mul_assoc]

/-- A union adds. -/
theorem length_expandSome : ∀ (fs : List Formula) (negated : Bool),
    (expandSome negated fs).length = sumOfCounts negated fs
  | [], negated => by
    rw [expandSome, sumOfCounts]
    rfl
  | f :: fs, negated => by
    rw [expandSome, List.length_append, length_expand f negated, length_expandSome fs negated,
      sumOfCounts]

end

end Formula

end Counting

section Clauses

theorem Conjunction.merge_append (left right more : Conjunction) :
    left.merge (right ++ more) = (left.merge right).merge more :=
  List.foldl_append

/-- Repetitions in what is added make no difference. -/
theorem Conjunction.merge_distinct (left right : Conjunction) :
    left.merge (distinct right) = left.merge right := by
  induction right using List.reverseRecOn with
  | nil => rfl
  | append_singleton right l ih =>
    by_cases hl : l ∈ right
    · have hmem : l ∈ left.merge right := mem_merge.mpr (.inr hl)
      rw [distinct_concat_of_mem hl, ih, merge_append]
      exact (if_pos hmem).symm
    · rw [distinct_concat_of_not_mem hl, merge_append, merge_append, ih]

namespace Formula

mutual

/-- The normal form of the negation of a nested disjunction of literals is the conjunction of
their complements. -/
theorem expand_of_isClause : ∀ (f : Formula) (negated : Bool), f.isClause (!negated) = true →
    f.expand negated = [distinct ((f.literals (!negated)).map Literal.complement)]
  | .atom a, negated, _ => by
    rw [expand, literals, List.map_singleton, Literal.complement, Bool.not_not]
    rfl
  | .negation f, negated, h => by
    rw [isClause] at h
    rw [expand, literals]
    exact expand_of_isClause f (!negated) h
  | .conjunction fs, negated, h => by
    rw [isClause, Bool.and_eq_true, Bool.not_eq_true'] at h
    rw [expand, literals, h.1, if_neg Bool.false_ne_true]
    exact expandAll_of_allClauses fs false [] (h.1 ▸ h.2)
  | .disjunction fs, negated, h => by
    rw [isClause, Bool.and_eq_true, Bool.not_not] at h
    rw [expand, literals, h.1, if_pos rfl]
    exact expandAll_of_allClauses fs true [] (h.1 ▸ h.2)

/-- Conjoining the negations of such formulas to a conjunction adds the complements of their
literals that it does not have yet. -/
theorem expandAll_of_allClauses : ∀ (fs : List Formula) (negated : Bool) (acc : Conjunction),
    allClauses (!negated) fs = true →
    expandAll negated [acc] fs =
      [acc.merge ((listLiterals (!negated) fs).map Literal.complement)]
  | [], negated, acc, _ => by
    rw [expandAll, listLiterals]
    rfl
  | f :: fs, negated, acc, h => by
    rw [allClauses, Bool.and_eq_true] at h
    rw [expandAll, expand_of_isClause f negated h.1, listLiterals, List.map_append,
      Conjunction.merge_append, ← Conjunction.merge_distinct acc]
    exact expandAll_of_allClauses fs negated _ h.2

end

end Formula

end Clauses

namespace LogicalRule

variable {name rule : String} {f : Formula} {weight : Option Float} {n : Nat}

theorem weightFault?_eq_none (h : ∀ x, weight = some x → x.isFinite = true) :
    weightFault? weight = none := by
  cases weight with
  | none => rfl
  | some x => exact if_pos (h x rfl)

theorem clauseFault?_ne_notAClause (clause : Conjunction) :
    clauseFault? name clause ≠ some (.notAClause rule n) := by
  rw [clauseFault?]
  split
  · nofun
  · rw [ne_eq, Option.map_eq_some_iff]
    rintro ⟨v, -, h⟩
    cases h

/-- What comes of a single conjunction depends on its own faults only. -/
theorem make_of_expand_eq (hweight : weightFault? weight = none) {clause : Conjunction}
    (h : f.expand true = [clause]) :
    make name f weight =
      (clauseFault? name clause).elim (.ok ⟨name, f, clause, weight⟩) .error := by
  simp only [make, hweight, h]
  cases clauseFault? name clause <;> rfl

/-- A rule is refused for its form if its negation has not exactly one conjunction. -/
theorem make_eq_notAClause_iff (hweight : weightFault? weight = none) :
    make name f weight = .error (.notAClause rule n) ↔
      (f.expand true).length ≠ 1 ∧ rule = name ∧ n = (f.expand true).length := by
  by_cases hone : (f.expand true).length = 1
  · obtain ⟨clause, hclause⟩ := List.length_eq_one_iff.mp hone
    refine iff_of_false ?_ fun h => h.1 hone
    rw [make_of_expand_eq hweight hclause]
    cases hfault : clauseFault? name clause with
    | none => nofun
    | some fault =>
      intro h
      rw [Except.error.inj h] at hfault
      exact clauseFault?_ne_notAClause clause hfault
  · have hmake : make name f weight = .error (.notAClause name (f.expand true).length) := by
      simp only [make, hweight]
      split
      · rename_i clause hclause
        exact absurd (by rw [hclause]; rfl) hone
      · rfl
    rw [hmake]
    constructor
    · intro h
      cases h
      exact ⟨hone, rfl, rfl⟩
    · rintro ⟨-, rfl, rfl⟩
      rfl

/-- The conjunctions of a normal form are counted on the formula. With a weight that is accepted,
a rule is refused as no clause exactly if the negation of its formula does not count one, and that
number is reported. A nested disjunction of literals is always recognised: the only conjunction
has the complements of the literals, each once, in the order in which they first came, and the
rule has it as its clause unless that is refused for its variables. -/
theorem clauses_are_recognised_exactly (name : String) (f : Formula) {weight : Option Float}
    (hweight : ∀ x, weight = some x → x.isFinite = true) :
    f.normalForm.length = f.conjunctionCount false ∧
      (∀ rule n, make name f weight = .error (.notAClause rule n) ↔
        (Formula.negation f).conjunctionCount false ≠ 1 ∧ rule = name ∧
          n = (Formula.negation f).conjunctionCount false) ∧
      (f.isClause false = true → ∃ clause, (Formula.negation f).normalForm = [clause] ∧
        (∀ l, l ∈ clause ↔ l ∈ (f.literals false).map Literal.complement) ∧
        (clause.Pairwise fun k l =>
          ((f.literals false).map Literal.complement).idxOf k <
            ((f.literals false).map Literal.complement).idxOf l) ∧
        make name f weight =
          (clauseFault? name clause).elim (.ok ⟨name, f, clause, weight⟩) .error) := by
  have hvalid := weightFault?_eq_none hweight
  have hnegation : (Formula.negation f).normalForm = f.expand true := by
    rw [Formula.normalForm, Formula.expand]
    rfl
  have hcount : (Formula.negation f).conjunctionCount false = (f.expand true).length := by
    rw [← hnegation, Formula.normalForm, Formula.length_expand]
  refine ⟨Formula.length_expand f false, fun rule n => ?_, fun hclause => ?_⟩
  · rw [hcount]
    exact make_eq_notAClause_iff hvalid
  · have hexpand := Formula.expand_of_isClause f true hclause
    refine ⟨_, hnegation.trans hexpand, fun l => mem_distinct, pairwise_idxOf_distinct _, ?_⟩
    exact make_of_expand_eq hvalid hexpand

/-- Saying twice that nobody is known changes the formula and not its clause. -/
theorem repeated_acquaintance_is_recognised :
    (∀ x : Float, none = some x → x.isFinite = true) ∧
      (Formula.disjunction [acquaintance, .negation (.atom knowsAtom)]).isClause false = true ∧
      ∃ clause, (Formula.negation (.disjunction
          [acquaintance, .negation (.atom knowsAtom)])).normalForm = [clause] ∧
        (∀ l, l ∈ clause ↔ l ∈ [Literal.positive knowsAtom, .positive differAtom,
          .negative knownAtom, .positive knowsAtom]) ∧
        make "acquaintance" (.disjunction [acquaintance, .negation (.atom knowsAtom)]) none =
          .ok ⟨"acquaintance", .disjunction [acquaintance, .negation (.atom knowsAtom)], clause,
            none⟩ := by
  have hweight : ∀ x : Float, none = some x → x.isFinite = true := nofun
  refine ⟨hweight, rfl, ?_⟩
  obtain ⟨-, -, hrecognised⟩ := clauses_are_recognised_exactly "acquaintance"
    (.disjunction [acquaintance, .negation (.atom knowsAtom)]) hweight
  obtain ⟨clause, hclause, hmem, -, hmake⟩ := hrecognised rfl
  obtain rfl : acquaintanceRule.clause = clause := (List.cons.inj hclause).1
  exact ⟨_, hclause, hmem, hmake⟩

end LogicalRule

end RuleGrounding
