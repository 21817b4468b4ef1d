import RuleGrounding.Proofs.Formula.Occurrences

/-!
# Truth of formulas

A formula is true or false once its atoms are. Its normal form has the same truth
value, and the normal form of its negation has the other one.
-/

namespace RuleGrounding

/-- Whether a literal is true when the atoms are as given. -/
def Literal.isTrue (truth : Atom → Bool) (l : Literal) : Bool := truth l.atom != l.negated

/-- Whether all literals of a conjunction are true. -/
def Conjunction.isTrue (truth : Atom → Bool) (c : Conjunction) : Bool :=
  c.all (Literal.isTrue truth)

@[simp] theorem Conjunction.isTrue_cons (truth : Atom → Bool) (l : Literal) (c : Conjunction) :
    Conjunction.isTrue truth (l :: c) = (l.isTrue truth && c.isTrue truth) :=
  List.all_cons

/-- Whether some conjunction of a normal form is true. -/
def NormalForm.isTrue (truth : Atom → Bool) (nf : NormalForm) : Bool :=
  nf.any (Conjunction.isTrue truth)

namespace Formula

mutual

/-- Whether a formula is true when the atoms are as given. -/
def isTrue (truth : Atom → Bool) : Formula → Bool
  | .atom a => truth a
  | .negation f => !f.isTrue truth
  | .conjunction fs => allTrue truth fs
  | .disjunction fs => someTrue truth fs

/-- Whether all of the formulas are true. -/
def allTrue (truth : Atom → Bool) : List Formula → Bool
  | [] => true
  | f :: fs => f.isTrue truth && allTrue truth fs

/-- Whether some of the formulas is true. -/
def someTrue (truth : Atom → Bool) : List Formula → Bool
  | [] => false
  | f :: fs => f.isTrue truth || someTrue truth fs

end

end Formula

variable {truth : Atom → Bool}

/-- Two conjunctions together are true if both are. -/
theorem Conjunction.isTrue_merge (left right : Conjunction) :
    (left.merge right).isTrue truth = (left.isTrue truth && right.isTrue truth) := by
  rw [Bool.eq_iff_iff, Bool.and_eq_true]
  simp only [isTrue, List.all_eq_true, mem_merge]
  exact ⟨fun h => ⟨fun l hl => h l (.inl hl), fun l hl => h l (.inr hl)⟩,
    fun h l hl => hl.elim (h.1 l) (h.2 l)⟩

/-- Distributing a conjunction over two disjunctions keeps its truth. -/
theorem NormalForm.isTrue_product (left right : NormalForm) :
    (left.product right).isTrue truth = (left.isTrue truth && right.isTrue truth) := by
  rw [Bool.eq_iff_iff, Bool.and_eq_true]
  simp only [isTrue, product, List.any_flatMap, List.any_map, List.any_eq_true,
    Function.comp_apply, Conjunction.isTrue_merge, Bool.and_eq_true]
  constructor
  · rintro ⟨c, hc, d, hd, hct, hdt⟩
    exact ⟨⟨c, hc, hct⟩, d, hd, hdt⟩
  · rintro ⟨⟨c, hc, hct⟩, d, hd, hdt⟩
    exact ⟨c, hc, d, hd, hct, hdt⟩

/-- The conjunction of no literals is true. -/
theorem NormalForm.isTrue_unit : NormalForm.isTrue truth [[]] = true := rfl

namespace Formula

open NormalForm (isTrue_unit)

mutual

/-- A normal form is true when the formula is, or when it is not if that is the normal form of the
negation. -/
theorem isTrue_expand : ∀ (f : Formula) (negated : Bool),
    NormalForm.isTrue truth (f.expand negated) = (f.isTrue truth != negated)
  | .atom a, negated => by
    simp [expand, NormalForm.isTrue, Conjunction.isTrue, Literal.isTrue, isTrue]
  | .negation f, negated => by
    rw [expand, isTrue, isTrue_expand f (!negated)]
    cases f.isTrue truth <;> cases negated <;> rfl
  | .conjunction fs, false => by
    rw [Bool.bne_false]
    have hall := isTrue_expandAll fs false [[]]
    rwa [isTrue_unit, Bool.true_and, if_neg Bool.false_ne_true] at hall
  | .conjunction fs, true => by
    rw [Bool.bne_true]
    exact isTrue_expandSome fs true
  | .disjunction fs, false => by
    rw [Bool.bne_false]
    exact isTrue_expandSome fs false
  | .disjunction fs, true => by
    rw [Bool.bne_true]
    have hall := isTrue_expandAll fs true [[]]
    rwa [isTrue_unit, Bool.true_and, if_pos rfl] at hall

/-- Conjoining further formulas to a normal form, or their negations. -/
theorem isTrue_expandAll : ∀ (fs : List Formula) (negated : Bool) (acc : NormalForm),
    NormalForm.isTrue truth (expandAll negated acc fs) =
      (acc.isTrue truth && if negated then !someTrue truth fs else allTrue truth fs)
  | [], negated, acc => by
    cases negated <;> simp [expandAll, someTrue, allTrue]
  | f :: fs, negated, acc => by
    rw [expandAll, isTrue_expandAll fs negated, NormalForm.isTrue_product, isTrue_expand f negated,
      Bool.and_assoc]
    cases negated <;> simp [someTrue, allTrue]

/-- A union of normal forms is true when one of the formulas is, or is not. -/
theorem isTrue_expandSome : ∀ (fs : List Formula) (negated : Bool),
    NormalForm.isTrue truth (expandSome negated fs) =
      if negated then !allTrue truth fs else someTrue truth fs
  | [], negated => by cases negated <;> rfl
  | f :: fs, negated => by
    rw [expandSome, NormalForm.isTrue, List.any_append]
    have hfirst := isTrue_expand f negated
    have hrest := isTrue_expandSome fs negated
    rw [NormalForm.isTrue] at hfirst hrest
    rw [hfirst, hrest]
    cases negated <;> simp [someTrue, allTrue]

end

/-- A conjunction of formulas that stand for literals is true if these literals are. -/
theorem allTrue_map_toFormula (c : Conjunction) :
    allTrue truth (c.map Literal.toFormula) = c.isTrue truth := by
  induction c with
  | nil => rfl
  | cons l c ih =>
    rw [List.map_cons, allTrue, ih, Conjunction.isTrue_cons]
    congr 1
    by_cases hnegated : l.negated = true
    · rw [Literal.toFormula, if_pos hnegated, isTrue, isTrue, Literal.isTrue, hnegated,
        Bool.bne_true]
    · rw [Literal.toFormula, if_neg hnegated, isTrue, Literal.isTrue,
        Bool.not_eq_true _ |>.mp hnegated, Bool.bne_false]

/-- A normal form read back as a formula keeps its truth. -/
theorem isTrue_toFormula (nf : NormalForm) : nf.toFormula.isTrue truth = nf.isTrue truth := by
  rw [NormalForm.toFormula, isTrue]
  induction nf with
  | nil => rfl
  | cons c nf ih =>
    rw [List.map_cons, someTrue, ih, isTrue, allTrue_map_toFormula, NormalForm.isTrue,
      NormalForm.isTrue, List.any_cons]

/-- The normal form of a formula means what the formula means, that of its negation the opposite,
and a normal form read back as a formula means what it meant. -/
theorem isTrue_normalForm (f : Formula) (truth : Atom → Bool) :
    f.normalForm.isTrue truth = f.isTrue truth ∧
      (Formula.negation f).normalForm.isTrue truth = !f.isTrue truth ∧
      ∀ nf : NormalForm, nf.toFormula.isTrue truth = nf.isTrue truth := by
  have hkept : f.normalForm.isTrue truth = f.isTrue truth := by
    rw [normalForm, isTrue_expand, Bool.bne_false]
  have hnegated : (Formula.negation f).normalForm.isTrue truth = !f.isTrue truth := by
    rw [normalForm, isTrue_expand, Bool.bne_false, isTrue]
  refine ⟨hkept, hnegated, ?_⟩
  intro nf
  exact isTrue_toFormula nf

end Formula

end RuleGrounding
