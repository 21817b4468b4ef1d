import RuleGrounding.Proofs.Grounding.Boundness
import RuleGrounding.Proofs.Store.Contents

/-!
# Cardinalities

The selection sets of the rows of a rule are kept in one map. Before a row is grounded, the map is
emptied and filled for that row, so that it has a set for each summation variable and no other,
and each set has the constants that are selected in this row. An expression that is accepted
refers to the cardinalities of its own summation variables only, so that each of them is the
size of such a set.
-/

namespace RuleGrounding

/-- The cardinalities in an accepted expression are those of its summation variables. -/
theorem Expression.mem_summationVariables_of_make {terms : List ExpressionTerm}
    {comparator : Comparator} {constant : Coefficient} {e : Expression}
    (h : make terms comparator constant = .ok e) {v : SummationVariable}
    (hv : v ∈ e.cardinalities) : v ∈ e.summationVariables := by
  rw [make] at h
  split at h
  · cases h
  · rename_i hnone
    cases h
    rw [fault?] at hnone
    split at hnone
    · cases hnone
    · split at hnone
      · cases hnone
      · rw [Option.map_eq_none_iff, List.find?_eq_none] at hnone
        simpa using hnone v hv

/-- The coefficients of the terms and the right side. -/
def Expression.coefficients (e : Expression) : List Coefficient :=
  e.terms.map ExpressionTerm.coefficient ++ [e.constant]

theorem Expression.mem_cardinalities {e : Expression} {k : Coefficient} (hk : k ∈ e.coefficients)
    {v : SummationVariable} (hv : v ∈ k.occurrences) : v ∈ e.cardinalities := by
  rw [cardinalities, List.mem_append, List.mem_flatMap]
  rcases List.mem_append.mp hk with hk | hk
  · obtain ⟨t, ht, rfl⟩ := List.mem_map.mp hk
    exact .inl ⟨t, ht, hv⟩
  · rw [List.mem_singleton.mp hk] at hv
    exact .inr hv

open Grounding

namespace ArithmeticRule

variable {name : String} {e : Expression} {formulas : FiniteMap SummationVariable Formula}
  {weight : Option Float} {r : ArithmeticRule} {v : SummationVariable}

/-- An accepted rule has a select formula for each of its summation variables. -/
theorem exists_formula_of_make (h : make name e formulas weight = .ok r)
    (hv : v ∈ e.summationVariables) : ∃ f, formulas.find? v = some f := by
  have hselect := (eq_of_make h).2.2 v hv
  rw [selectFault?] at hselect
  cases hf : formulas.find? v with
  | none =>
    rw [hf] at hselect
    cases hselect
  | some f => exact ⟨f, rfl⟩

/-- What is selected for a summation variable of an accepted rule, by its select formula. -/
theorem selects_iff_of_make (h : make name e formulas weight = .ok r) {f : Formula}
    (hf : formulas.find? v = some f) {s : Store} {τ : Valuation} {c : Constant} :
    r.Selects s (e.vars.map τ) v c ↔ ∃ conjunction ∈ f.normalForm, ∃ σ : Valuation,
      σ.Extends (ResultList.assign e.vars (e.vars.map τ)) ∧
        (∀ l ∈ conjunction, l.HoldsIn s σ) ∧ σ v.plain = c := by
  simp only [Selects, find?_selects_of_make h, hf, Option.map_some, Option.getD_some,
    (selects_of_make h).1, ResultList.extends_assign_iff]

/-- Whatever sets there were before, those that are recomputed for a row are one for each summation
variable, and list what is selected in this row. -/
theorem exists_yields_recomputeSets (hr : make name e formulas weight = .ok r)
    (hformulas : ∀ v f, formulas.find? v = some f → ∀ a ∈ f.occurrences, a.HasArity) (s : Store)
    (τ : Valuation) (before : SelectionSets) :
    ∃ sets : SelectionSets,
      Yields (r.recomputeSets s (ResultList.assign e.vars (e.vars.map τ)) before) sets ∧
        (∀ v, v ∈ sets.keys ↔ v ∈ e.summationVariables) ∧ sets.Lists r s (e.vars.map τ) := by
  obtain ⟨rfl, hselects⟩ := selects_of_make hr
  have harities := selectArities_of_make hr hformulas
  obtain ⟨sets, hsets⟩ := exists_yields_fillSets hr s τ ∅ r.expression.summationVariables
  have hrun := hsets ⟨.fresh .strict, []⟩
  refine ⟨sets, hsets, fun v => ?_, (runOn_selectionSets harities hselects hrun).2⟩
  rw [(runOn_fillSets harities hrun).2.1 v]
  exact or_iff_right List.not_mem_nil

/-- For an accepted rule over an accepted expression and for any row, store and workspace, and
whatever sets there were before, the selection sets are recomputed and nothing else changes. Then
there is a set for each summation variable of the expression and for no other. It has each
constant once with which some conjunction of the variable's select formula holds in the row, and
no others. All cardinalities in the coefficients and in the right side are those of such sets,
so that their values are computed from the numbers of the selected constants. -/
theorem selection_sets_are_exact {terms : List ExpressionTerm} {comparator : Comparator}
    {constant : Coefficient} (he : Expression.make terms comparator constant = .ok e)
    (hr : make name e formulas weight = .ok r)
    (hformulas : ∀ v f, formulas.find? v = some f → ∀ a ∈ f.occurrences, a.HasArity)
    {row : Row} (hrow : row.length = e.vars.length) (s : Store) (before : SelectionSets)
    (w : Workspace) :
    ∃ sets, (r.recomputeSets s (ResultList.assign e.vars row) before).runOn w = (.ok sets, w) ∧
      (∀ v, v ∈ sets.keys ↔ v ∈ e.summationVariables) ∧
      (∀ v ∈ e.summationVariables, ∃ f set, formulas.find? v = some f ∧
        sets.find? v = some set ∧ set.Nodup ∧
        ∀ c, c ∈ set ↔ ∃ conjunction ∈ f.normalForm, ∃ σ : Valuation,
          σ.Extends (ResultList.assign e.vars row) ∧ (∀ l ∈ conjunction, l.HoldsIn s σ) ∧
            σ v.plain = c) ∧
      ∀ k ∈ e.coefficients, (∀ v ∈ k.occurrences, v ∈ sets.keys) ∧
        k.value sets.size = k.value (r.selectionSize s row) := by
  have hvars : e.vars.Nodup := nodup_distinct _
  obtain ⟨τ, rfl⟩ := Valuation.exists_map_eq hvars hrow.symm
  obtain ⟨sets, hsets, hkeys, hlists⟩ := exists_yields_recomputeSets hr hformulas s τ before
  refine ⟨sets, hsets w, hkeys, fun v hv => ?_, fun k hk => ⟨fun v hv => ?_, ?_⟩⟩
  · obtain ⟨f, hf⟩ := exists_formula_of_make hr hv
    obtain ⟨set, hset⟩ := FiniteMap.mem_keys_iff.mp ((hkeys v).mpr hv)
    have helements : sets.elements v = set := by
      rw [SelectionSets.elements, hset, Option.getD_some]
    refine ⟨f, set, hf, hset, helements ▸ hlists.nodup v, fun c => ?_⟩
    rw [← selects_iff_of_make hr hf, ← helements]
    exact hlists.mem_iff v c
  · exact (hkeys v).mpr
      (Expression.mem_summationVariables_of_make he (Expression.mem_cardinalities hk hv))
  · rw [funext hlists.size_eq]

/-- Sets of another row, for another variable even, leave no trace in the tasks of a person. -/
theorem tasks_are_recomputed :
    Expression.make shareExpression.terms .equal (.number 1.0) = .ok shareExpression ∧
      make "share" shareExpression shareFormulas none = .ok shareRule ∧
      (∀ v f, shareFormulas.find? v = some f → ∀ a ∈ f.occurrences, a.HasArity) ∧
      [Constant.integer 1].length = shareExpression.vars.length ∧
      ∃ sets, (shareRule.recomputeSets taskStore (ResultList.assign [⟨"P"⟩] [.integer 1])
          (.ofList [(⟨⟨"T"⟩⟩, [.integer 9]), (⟨⟨"U"⟩⟩, [.integer 8])])).runOn
            ⟨.fresh .strict, []⟩ = (.ok sets, ⟨.fresh .strict, []⟩) ∧
        ⟨⟨"U"⟩⟩ ∉ sets.keys ∧ ∃ set, sets.find? ⟨⟨"T"⟩⟩ = some set ∧
          ∀ c, c ∈ set ↔ ∃ conjunction ∈ (Formula.atom taskAtom).normalForm, ∃ σ : Valuation,
            σ.Extends (ResultList.assign [⟨"P"⟩] [.integer 1]) ∧
              (∀ l ∈ conjunction, l.HoldsIn taskStore σ) ∧ σ ⟨"T"⟩ = c := by
  have hexpression : Expression.make shareExpression.terms .equal (.number 1.0) =
      .ok shareExpression := rfl
  have hmake : make "share" shareExpression shareFormulas none = .ok shareRule := rfl
  have hformula : ∀ v f, shareFormulas.find? v = some f → f = .atom taskAtom := by
    intro v f hf
    have hentry : (v, f) ∈ [((⟨⟨"T"⟩⟩ : SummationVariable), Formula.atom taskAtom)] :=
      FiniteMap.find?_eq_some_iff.mp hf
    exact (Prod.mk.inj (List.mem_singleton.mp hentry)).2
  have harities : ∀ v f, shareFormulas.find? v = some f → ∀ a ∈ f.occurrences, a.HasArity := by
    intro v f hf
    rw [hformula v f hf]
    decide
  have hrow : [Constant.integer 1].length = shareExpression.vars.length := rfl
  refine ⟨hexpression, hmake, harities, hrow, ?_⟩
  obtain ⟨sets, hrun, hkeys, hsets, -⟩ := selection_sets_are_exact hexpression hmake harities hrow
    taskStore (.ofList [(⟨⟨"T"⟩⟩, [.integer 9]), (⟨⟨"U"⟩⟩, [.integer 8])]) ⟨.fresh .strict, []⟩
  obtain ⟨f, set, hf, hset, -, hmem⟩ := hsets ⟨⟨"T"⟩⟩ (by decide)
  obtain rfl := hformula _ _ hf
  exact ⟨sets, hrun, mt (hkeys _).mp (by decide), set, hset, hmem⟩

end ArithmeticRule

end RuleGrounding
