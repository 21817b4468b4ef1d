import RuleGrounding.Grounding.Rules
import RuleGrounding.Proofs.Grounding.Steps

/-!
# What grounding is composed of

All grounding is composed of the same few single steps. Which of them come, and in which
order, is decided by their results alone, so two runs over two stores can be compared
step by step; with one store twice this is an induction over the steps of one run.
-/

namespace RuleGrounding

/-- A ground rule is a ground clause. -/
def GroundRule.IsClause (g : GroundRule) : Prop := ∃ c, g = .logical c

/-- A ground rule is a ground clause with the name and the weight of a rule. -/
def GroundRule.IsClauseOf (r : LogicalRule) (g : GroundRule) : Prop :=
  ∃ positive negative, g = .logical ⟨r.name, r.weight, positive, negative⟩

/-- A ground rule is a ground constraint. -/
def GroundRule.IsConstraint (g : GroundRule) : Prop := ∃ c, g = .arithmetic c

namespace Grounding

/-- Two steps are composed in the same way of the same single steps, each over its own store, and
produce ground rules of some kind. -/
inductive Parallel (s s' : Store) (kind : GroundRule → Prop) :
    {α : Type} → Grounding α → Grounding α → Prop where
  /-- Both have the same result. -/
  | pure {α : Type} (a : α) : Parallel s s' kind (Pure.pure a) (Pure.pure a)
  /-- Both fail with the same fault. -/
  | throw {α : Type} (fault : GroundingFault) :
      Parallel s s' kind (MonadExcept.throw fault : Grounding α) (MonadExcept.throw fault)
  /-- Both go on in the same way for the same result. -/
  | bind {α β : Type} {x x' : Grounding α} {f f' : α → Grounding β} :
      Parallel s s' kind x x' → (∀ a, Parallel s s' kind (f a) (f' a)) →
      Parallel s s' kind (x >>= f) (x' >>= f')
  /-- Both evaluate the same query. -/
  | query (q : Query) : Parallel s s' kind (query s q) (query s' q)
  /-- Both resolve the same atom. -/
  | resolve (p : Predicate) (args : List Constant) :
      Parallel s s' kind (resolve s p args) (resolve s' p args)
  /-- Both resolve the same functional atom and read its value. -/
  | read {p : Predicate} (args : List Constant) : p.isStandard = false →
      Parallel s s' kind (resolve s p args >>= valueOf) (resolve s' p args >>= valueOf)
  /-- Both produce the same ground rule. -/
  | emit {g : GroundRule} : kind g → Parallel s s' kind (emit g) (emit g)

/-- Ground rules of one kind are of any wider kind. -/
theorem Parallel.mono {s s' : Store} {kind kind' : GroundRule → Prop} {α : Type}
    {x x' : Grounding α} (h : Parallel s s' kind x x') (hkind : ∀ g, kind g → kind' g) :
    Parallel s s' kind' x x' := by
  induction h with
  | pure a => exact .pure a
  | throw fault => exact .throw fault
  | bind _ _ ihx ihf => exact .bind ihx ihf
  | query q => exact .query q
  | resolve p args => exact .resolve p args
  | read args hp => exact .read args hp
  | emit hg => exact .emit (hkind _ hg)

/-- The two stores may be exchanged. -/
theorem Parallel.symm {s s' : Store} {kind : GroundRule → Prop} {α : Type} {x x' : Grounding α}
    (h : Parallel s s' kind x x') : Parallel s' s kind x' x := by
  induction h with
  | pure a => exact .pure a
  | throw fault => exact .throw fault
  | bind _ _ ihx ihf => exact .bind ihx ihf
  | query q => exact .query q
  | resolve p args => exact .resolve p args
  | read args hp => exact .read args hp
  | emit hg => exact .emit hg

end Grounding

open Grounding

variable {kind : GroundRule → Prop} (s s' : Store)

namespace LogicalRule

theorem parallel_resolveLiteral (θ : Assignment) (l : Literal) :
    Parallel s s' kind (resolveLiteral s θ l) (resolveLiteral s' θ l) := by
  rw [resolveLiteral, resolveLiteral]
  cases l.atom.groundArgs θ with
  | error v => exact .throw _
  | ok args => exact .resolve _ args

theorem parallel_groundLiterals (θ : Assignment) (ls : Conjunction) (sides : ClauseSides) :
    Parallel s s' kind (groundLiterals s θ ls sides) (groundLiterals s' θ ls sides) := by
  induction ls generalizing sides with
  | nil => exact .pure _
  | cons l ls ih =>
    rw [groundLiterals, groundLiterals]
    by_cases hstandard : l.atom.predicate.isStandard = true
    · simp only [if_pos hstandard]
      exact .bind (parallel_resolveLiteral s s' θ l) fun h => ih _
    · -- Values are read of functional atoms only.
      simp only [if_neg hstandard]
      rw [resolveLiteral, resolveLiteral]
      cases l.atom.groundArgs θ with
      | error v => exact .throw _
      | ok args =>
        dsimp only
        rw [← bind_assoc, ← bind_assoc]
        refine .bind (.read args (Bool.eq_false_iff.mpr hstandard)) fun value => ?_
        split
        · exact .pure none
        · exact ih _

theorem parallel_groundRow (r : LogicalRule) (θ : Assignment) :
    Parallel s s' (GroundRule.IsClauseOf r) (r.groundRow s θ) (r.groundRow s' θ) := by
  rw [groundRow, groundRow]
  refine .bind (parallel_groundLiterals s s' θ r.clause .empty) fun sides => ?_
  cases hclause : sides.bind r.clauseOf? with
  | none => exact .pure 0
  | some g =>
    obtain ⟨sides, -, hg⟩ := Option.bind_eq_some_iff.mp hclause
    rw [clauseOf?] at hg
    split at hg
    · cases hg
    · cases hg
      exact .bind (.emit ⟨_, _, rfl⟩) fun _ => .pure 1

theorem parallel_groundRows (r : LogicalRule) (rows : List Assignment) :
    Parallel s s' (GroundRule.IsClauseOf r) (r.groundRows s rows) (r.groundRows s' rows) := by
  induction rows with
  | nil => exact .pure 0
  | cons θ rows ih =>
    rw [groundRows, groundRows]
    exact .bind (parallel_groundRow s s' r θ) fun n => .bind ih fun rest => .pure (n + rest)

theorem parallel_ground (r : LogicalRule) :
    Parallel s s' (GroundRule.IsClauseOf r) (r.ground s) (r.ground s') := by
  rw [ground, ground]
  refine .bind (.query r.groundingQuery) fun results => ?_
  rw [groundResults, groundResults]
  exact parallel_groundRows s s' r results.assignments

end LogicalRule

namespace ArithmeticRule

theorem parallel_selectAll (θ : Assignment) (v : SummationVariable) (set : List Constant)
    (cs : NormalForm) : Parallel s s' kind (selectAll s θ v set cs) (selectAll s' θ v set cs) := by
  induction cs generalizing set with
  | nil => exact .pure set
  | cons c cs ih =>
    rw [selectAll, selectAll]
    exact .bind (.query _) fun results => ih _

theorem parallel_fillSets (r : ArithmeticRule) (θ : Assignment) (sets : SelectionSets)
    (vs : List SummationVariable) :
    Parallel s s' kind (r.fillSets s θ sets vs) (r.fillSets s' θ sets vs) := by
  induction vs generalizing sets with
  | nil => exact .pure sets
  | cons v vs ih =>
    rw [fillSets, fillSets]
    exact .bind (parallel_selectAll s s' θ v _ _) fun set => ih _

theorem parallel_domains (θ : Assignment) (sets : SelectionSets) (args : List SummationTerm) :
    Parallel s s' kind (domains θ sets args) (domains θ sets args) := by
  induction args with
  | nil => exact .pure []
  | cons arg args ih =>
    cases arg with
    | sum v =>
      rw [domains]
      exact .bind ih fun rest => .pure _
    | plain term =>
      cases term with
      | const c =>
        rw [domains]
        exact .bind ih fun rest => .pure _
      | var v =>
        rw [domains]
        cases θ.find? v with
        | none => exact .throw _
        | some c => exact .bind ih fun rest => .pure _

theorem parallel_settle (θ : Assignment) (sets : SelectionSets) (ts : List ExpressionTerm) :
    Parallel s s' kind (settle θ sets ts) (settle θ sets ts) := by
  induction ts with
  | nil => exact .pure _
  | cons t ts ih =>
    rw [settle]
    refine .bind (parallel_domains s s' θ sets t.atom.args) fun ds => ?_
    split
    · exact ih
    · dsimp only
      split
      · exact .bind ih fun rest => .pure _
      · exact .pure none

theorem parallel_resolveAll (p : Predicate) (tuples : List (List Constant)) :
    Parallel s s' kind (resolveAll s p tuples) (resolveAll s' p tuples) := by
  induction tuples with
  | nil => exact .pure []
  | cons args tuples ih =>
    rw [resolveAll, resolveAll]
    exact .bind (.resolve p args) fun h => .bind ih fun hs => .pure (h :: hs)

theorem parallel_expandAll (es : List Expansion) :
    Parallel s s' kind (expandAll s es) (expandAll s' es) := by
  induction es with
  | nil => exact .pure []
  | cons e es ih =>
    rw [expandAll, expandAll]
    exact .bind (parallel_resolveAll s s' e.predicate _) fun hs => .bind ih fun rest => .pure _

/-- Producing several ground rules of the kind. -/
theorem parallel_emitAll {ι : Type} {f : ι → GroundRule} (hkind : ∀ i, kind (f i)) (is : List ι) :
    Parallel s s' kind (is.forM fun i => emit (f i)) (is.forM fun i => emit (f i)) := by
  induction is with
  | nil => exact .pure _
  | cons i is ih =>
    rw [List.forM_eq_forM, List.forM_cons]
    exact .bind (.emit (hkind i)) fun _ => ih

theorem parallel_groundRow (r : ArithmeticRule) (θ : Assignment) (sets : SelectionSets) :
    Parallel s s' GroundRule.IsConstraint (r.groundRow s θ sets) (r.groundRow s' θ sets) := by
  rw [groundRow, groundRow]
  refine .bind (parallel_settle s s' θ sets r.expression.terms) fun settled => ?_
  cases settled with
  | none => exact .pure 0
  | some expansions =>
    dsimp only
    split
    · refine .bind (parallel_expandAll s s' expansions) fun entries => ?_
      exact .bind (parallel_emitAll s s' (fun _ => ⟨_, rfl⟩) _) fun _ => .pure _
    · exact .pure 0

theorem parallel_groundRows (r : ArithmeticRule) (sets : SelectionSets) (rows : List Assignment) :
    Parallel s s' GroundRule.IsConstraint (r.groundRows s sets rows)
      (r.groundRows s' sets rows) := by
  induction rows generalizing sets with
  | nil => exact .pure 0
  | cons θ rows ih =>
    rw [groundRows, groundRows]
    refine .bind (parallel_fillSets s s' r θ _ _) fun sets => ?_
    exact .bind (parallel_groundRow s s' r θ sets) fun n =>
      .bind (ih sets) fun rest => .pure (n + rest)

theorem parallel_ground (r : ArithmeticRule) :
    Parallel s s' GroundRule.IsConstraint (r.ground s) (r.ground s') := by
  rw [ground, ground]
  exact .bind (.query r.groundingQuery) fun results =>
    parallel_groundRows s s' r ∅ results.assignments

end ArithmeticRule

namespace Rule

/-- The ground rules of a rule of either kind are of some kind. -/
theorem parallel_ground (r : Rule) :
    Parallel s s' (fun _ => True) (r.ground s) (r.ground s') := by
  cases r with
  | logical r => exact (r.parallel_ground s s').mono fun _ _ => trivial
  | arithmetic r => exact (r.parallel_ground s s').mono fun _ _ => trivial

theorem parallel_groundResults (results : ResultList) (r : Rule) :
    Parallel s s' (fun _ => True) (r.groundResults s results) (r.groundResults s' results) := by
  cases r with
  | logical r =>
    exact (r.parallel_groundRows s s' results.assignments).mono fun _ _ => trivial
  | arithmetic r => exact .throw _

theorem parallel_groundAll (rs : List Rule) :
    Parallel s s' (fun _ => True) (groundAll s rs) (groundAll s' rs) := by
  induction rs with
  | nil => exact .pure 0
  | cons r rs ih =>
    rw [groundAll, groundAll]
    exact .bind (r.parallel_ground s s') fun n => .bind ih fun rest => .pure (n + rest)

end Rule

end RuleGrounding
