import RuleGrounding.Proofs.Formula.Occurrences

/-!
# Repetitions in normal forms

No conjunction of a normal form has a literal twice. Normalising a disjunction of
conjunctions of literals takes the repetitions out of these conjunctions and does nothing
else, so what is in normal form stays as it is, with the order of everything in it.
-/

namespace RuleGrounding

/-- A conjunction without repetition is continued by those literals of another one that it does
not have yet. -/
theorem Conjunction.merge_eq_distinct {left : Conjunction} (hleft : left.Nodup)
    (right : Conjunction) : left.merge right = distinct (left ++ right) := by
  have hsplit : distinct (left ++ right) = Conjunction.merge (distinct left) right :=
    List.foldl_append
  rw [hsplit, distinct_eq_self hleft]

/-- Distributing brings no repetition into the conjunctions. -/
theorem NormalForm.nodup_of_mem_product {left right : NormalForm} (hleft : ∀ c ∈ left, c.Nodup)
    {c : Conjunction} (hc : c ∈ left.product right) : c.Nodup := by
  obtain ⟨d, hd, e, -, rfl⟩ := mem_product.mp hc
  rw [Conjunction.merge_eq_distinct (hleft d hd)]
  exact nodup_distinct (d ++ e)

namespace Formula

mutual

/-- The conjunctions of a normal form have no repetition. -/
theorem nodup_of_mem_expand : ∀ (f : Formula) (negated : Bool) {c : Conjunction},
    c ∈ f.expand negated → c.Nodup
  | .atom a, negated, c, hc => by
    rw [expand, List.mem_singleton] at hc
    rw [hc]
    exact List.nodup_cons.mpr ⟨List.not_mem_nil, List.nodup_nil⟩
  | .negation f, negated, c, hc => by
    rw [expand] at hc
    exact nodup_of_mem_expand f (!negated) hc
  | .conjunction fs, negated, c, hc => by
    rw [expand] at hc
    split at hc
    · exact nodup_of_mem_expandSome fs negated hc
    · exact nodup_of_mem_expandAll fs negated (by simp) hc
  | .disjunction fs, negated, c, hc => by
    rw [expand] at hc
    split at hc
    · exact nodup_of_mem_expandAll fs negated (by simp) hc
    · exact nodup_of_mem_expandSome fs negated hc

/-- Conjoining further formulas keeps it so. -/
theorem nodup_of_mem_expandAll : ∀ (fs : List Formula) (negated : Bool) {acc : NormalForm}
    {c : Conjunction}, (∀ d ∈ acc, d.Nodup) → c ∈ expandAll negated acc fs → c.Nodup
  | [], negated, acc, c, hacc, hc => hacc c hc
  | f :: fs, negated, acc, c, hacc, hc => by
    rw [expandAll] at hc
    exact nodup_of_mem_expandAll fs negated
      (fun _ hd => NormalForm.nodup_of_mem_product hacc hd) hc

/-- A union has the conjunctions of the normal forms that it unites. -/
theorem nodup_of_mem_expandSome : ∀ (fs : List Formula) (negated : Bool) {c : Conjunction},
    c ∈ expandSome negated fs → c.Nodup
  | [], negated, c, hc => by cases hc
  | f :: fs, negated, c, hc => by
    rw [expandSome, List.mem_append] at hc
    rcases hc with hc | hc
    · exact nodup_of_mem_expand f negated hc
    · exact nodup_of_mem_expandSome fs negated hc

end

/-- The normal form of a literal is the literal. -/
theorem expand_toFormula (l : Literal) : l.toFormula.expand false = [[l]] := by
  obtain ⟨a, negated⟩ := l
  cases negated <;> rfl

/-- Conjoining literals to a single conjunction appends those that it does not have yet. -/
theorem expandAll_map_toFormula (acc c : Conjunction) :
    expandAll false [acc] (c.map Literal.toFormula) = [acc.merge c] := by
  induction c generalizing acc with
  | nil => rfl
  | cons l c ih =>
    rw [List.map_cons, expandAll, expand_toFormula]
    exact ih (acc.merge [l])

/-- Normalising a disjunction of conjunctions of literals takes each literal of a conjunction once,
where it first came, and leaves the conjunctions and their order. -/
theorem normalForm_toFormula (nf : NormalForm) :
    nf.toFormula.normalForm = nf.map distinct := by
  rw [NormalForm.toFormula, normalForm, expand, if_neg Bool.false_ne_true]
  induction nf with
  | nil => rfl
  | cons c nf ih =>
    rw [List.map_cons, expandSome, ih, expand, if_neg Bool.false_ne_true,
      expandAll_map_toFormula]
    rfl

/-- No conjunction of a normal form has a literal twice, and reading a normal form back as a formula
and normalising that gives the same normal form again. What normalising does to any disjunction
of conjunctions of literals is to take out the repetitions within the conjunctions, so the normal
forms are those that have none. -/
theorem normalForm_is_reduced (f : Formula) :
    (∀ c ∈ f.normalForm, c.Nodup) ∧ f.normalForm.toFormula.normalForm = f.normalForm ∧
      (∀ nf : NormalForm, nf.toFormula.normalForm = nf.map distinct) ∧
      ∀ nf : NormalForm, (∃ g : Formula, g.normalForm = nf) ↔ ∀ c ∈ nf, c.Nodup := by
  have hnodup : ∀ (g : Formula), ∀ c ∈ g.normalForm, c.Nodup :=
    fun g c hc => nodup_of_mem_expand g false hc
  have hstable : ∀ nf : NormalForm, (∀ c ∈ nf, c.Nodup) → nf.toFormula.normalForm = nf := by
    intro nf hnf
    rw [normalForm_toFormula, List.map_congr_left fun c hc => distinct_eq_self (hnf c hc)]
    exact List.map_id nf
  refine ⟨hnodup f, hstable _ (hnodup f), normalForm_toFormula, fun nf => ⟨?_, ?_⟩⟩
  · rintro ⟨g, rfl⟩
    exact hnodup g
  · intro hnf
    exact ⟨nf.toFormula, hstable nf hnf⟩

end Formula

end RuleGrounding
