import RuleGrounding.Proofs.Formula.Coverage
import RuleGrounding.Proofs.Grounding.Deferring

/-!
# The variables of a rule and of its formula

Whether a query binds the variables of a rule is checked on the clause, not on the formula that
the rule was given as. Normalising keeps the atoms of a formula without empty connectives, so
the check leaves no variable out: each one of the formula stands in a literal that binds it.
-/

namespace RuleGrounding

namespace LogicalRule

section Clause

variable {name : String} {f : Formula} {weight : Option Float} {r : LogicalRule}

/-- The atoms of the clause are those of the formula. -/
theorem exists_mem_clause_iff (hr : make name f weight = .ok r) (hf : f.isProper = true)
    {a : Atom} : (∃ l ∈ r.clause, l.atom = a) ↔ a ∈ f.atoms := by
  have hmentions : (f.expand true).Mentions a ↔ a ∈ f.atoms := Formula.mentions_iff_of_isProper hf
  obtain ⟨clause, hclause, -, rfl⟩ := eq_of_make hr
  rw [← hmentions, hclause]
  simp only [NormalForm.Mentions, List.mem_singleton, exists_eq_left]

/-- So the clause has the variables of the formula. -/
theorem mem_vars_iff (hr : make name f weight = .ok r) (hf : f.isProper = true) {v : Variable} :
    v ∈ r.vars ↔ v ∈ f.vars := by
  rw [vars, Formula.vars, mem_distinct, mem_distinct, List.mem_flatMap, List.mem_flatMap]
  constructor
  · rintro ⟨l, hl, hv⟩
    exact ⟨l.atom, (exists_mem_clause_iff hr hf).mp ⟨l, hl, rfl⟩, hv⟩
  · rintro ⟨a, ha, hv⟩
    obtain ⟨l, hl, rfl⟩ := (exists_mem_clause_iff hr hf).mpr ha
    exact ⟨l, hl, hv⟩

/-- Each of them is bound by the query. -/
theorem exists_mem_query_of_mem_vars (hr : make name f weight = .ok r) {v : Variable}
    (hv : v ∈ r.vars) : ∃ l ∈ r.query, l.generates = true ∧ v ∈ l.atom.vars := by
  obtain ⟨l, hl, hvl⟩ := List.mem_flatMap.mp (mem_distinct.mp hv)
  obtain ⟨g, hg, hgenerates, hvg⟩ := exists_generates_of_make hr hl hvl
  exact ⟨g, mem_query_of_generates hg hgenerates, hgenerates, hvg⟩

end Clause

/-- The normal form of a formula mentions no other atoms than the formula. If no connective of the
formula is empty, and these are the formulas that the checked constructors build, it has at least
one conjunction and mentions every atom. So a rule that is accepted from such a formula has the
formula's variables, and every one of them stands in a literal of the query that requires a stored
atom. -/
theorem normalForm_keeps_atoms_and_safety (f : Formula) :
    (∀ a, f.normalForm.Mentions a → a ∈ f.atoms) ∧ (f.isProper = true ↔ f.Built) ∧
      (f.isProper = true →
        f.normalForm ≠ [] ∧ (∀ a ∈ f.atoms, f.normalForm.Mentions a) ∧
        ∀ name weight r, make name f weight = .ok r →
          (∀ v, v ∈ r.vars ↔ v ∈ f.vars) ∧
          ∀ v ∈ f.vars, ∃ l ∈ r.query, l.generates = true ∧ v ∈ l.atom.vars) := by
  refine ⟨fun a ha => Formula.mem_atoms_of_mentions ha, Formula.isProper_iff_built, ?_⟩
  intro hf
  refine ⟨Formula.expand_ne_nil f false hf, ?_, ?_⟩
  · intro a ha
    exact (Formula.mentions_iff_of_isProper hf).mpr ha
  · intro name weight r hr
    have hvars : ∀ v, v ∈ r.vars ↔ v ∈ f.vars := fun v => mem_vars_iff hr hf
    refine ⟨hvars, ?_⟩
    intro v hv
    exact exists_mem_query_of_mem_vars hr ((hvars v).mpr hv)

/-- The formula about acquaintances has no empty connective, and the query of its rule binds both of
its variables. -/
theorem acquaintance_is_bound_by_query :
    acquaintance.isProper = true ∧
      make "acquaintance" acquaintance none = .ok acquaintanceRule ∧
      acquaintance.normalForm ≠ [] ∧ acquaintance.normalForm.Mentions differAtom ∧
      ∃ l ∈ acquaintanceRule.query, l.generates = true ∧ ⟨"B"⟩ ∈ l.atom.vars := by
  have hproper : acquaintance.isProper = true := rfl
  have hmake : make "acquaintance" acquaintance none = .ok acquaintanceRule := rfl
  obtain ⟨-, -, hkept⟩ := normalForm_keeps_atoms_and_safety acquaintance
  obtain ⟨hsome, hmentions, hrule⟩ := hkept hproper
  obtain ⟨-, hbound⟩ := hrule _ _ _ hmake
  exact ⟨hproper, hmake, hsome, hmentions differAtom (by decide), hbound ⟨"B"⟩ (by decide)⟩

end LogicalRule

end RuleGrounding
