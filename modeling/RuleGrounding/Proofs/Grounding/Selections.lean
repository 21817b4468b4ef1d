import Mathlib.Data.Set.Card
import RuleGrounding.Grounding.Arithmetic
import RuleGrounding.Proofs.Formula.Occurrences
import RuleGrounding.Proofs.Grounding.Steps
import RuleGrounding.Proofs.OrderedSet
import RuleGrounding.Proofs.Query.Answers

/-!
# Selection sets

For one row of an arithmetic rule a select formula selects constants for its
summation variable. The selection sets that grounding computes for a row list
exactly these constants, each once, whatever was computed for other rows.
-/

namespace RuleGrounding

namespace ArithmeticRule

/-- A valuation satisfies the atoms of all terms. -/
def SatisfiedBy (r : ArithmeticRule) (s : Store) (σ : Valuation) : Prop :=
  ∀ t ∈ r.expression.terms, (Literal.positive t.atom.queryAtom).HoldsIn s σ

/-- A constant is selected for a summation variable: with it and the row some conjunction of the
select formula holds. -/
def Selects (r : ArithmeticRule) (s : Store) (row : Row) (v : SummationVariable) (c : Constant) :
    Prop :=
  ∃ conjunction ∈ (r.selects.find? v).getD [], ∃ σ : Valuation,
    r.expression.vars.map σ = row ∧ (∀ l ∈ conjunction, l.HoldsIn s σ) ∧ σ v.plain = c

/-- The number of constants that are selected for a summation variable. -/
noncomputable def selectionSize (r : ArithmeticRule) (s : Store) (row : Row)
    (v : SummationVariable) : Nat :=
  {c | r.Selects s row v c}.ncard

/-- The atoms of terms and select formulas have the declared number of arguments. -/
structure HasArities (r : ArithmeticRule) : Prop where
  /-- The atoms of the terms. -/
  terms : ∀ t ∈ r.expression.terms, t.atom.queryAtom.HasArity
  /-- The atoms of the select formulas. -/
  selects : ∀ v conjunctions, r.selects.find? v = some conjunctions →
    ∀ conjunction ∈ conjunctions, ∀ l ∈ conjunction, l.atom.HasArity

end ArithmeticRule

namespace SelectionSets

/-- The constants in the set of a summation variable. -/
def elements (sets : SelectionSets) (v : SummationVariable) : List Constant :=
  (sets.find? v).getD []

/-- The sets list what is selected for a row. -/
structure Lists (sets : SelectionSets) (r : ArithmeticRule) (s : Store) (row : Row) : Prop where
  /-- No constant is listed twice. -/
  nodup : ∀ v, (sets.elements v).Nodup
  /-- The selected constants are listed, and no others. -/
  mem_iff : ∀ v c, c ∈ sets.elements v ↔ r.Selects s row v c

/-- The size of a set is the number of selected constants. -/
theorem Lists.size_eq {sets : SelectionSets} {r : ArithmeticRule} {s : Store} {row : Row}
    (h : sets.Lists r s row) (v : SummationVariable) :
    sets.size v = r.selectionSize s row v := by
  classical
  have hset : {c | r.Selects s row v c} = ((sets.elements v).toFinset : Set Constant) := by
    ext c
    rw [Set.mem_ofPred_eq, Finset.mem_coe, List.mem_toFinset, h.mem_iff]
  rw [ArithmeticRule.selectionSize, hset, Set.ncard_coe_finset,
    List.toFinset_card_of_nodup (h.nodup v)]
  rfl

end SelectionSets

namespace ArithmeticRule

section Acceptance

variable {name : String} {e : Expression} {formulas : FiniteMap SummationVariable Formula}
  {weight : Option Float} {r : ArithmeticRule}

/-- A rule that is accepted has the normal forms of its select formulas. These are for summation
variables of its expression, and each of these has one in which nothing is wrong. -/
theorem eq_of_make (h : make name e formulas weight = .ok r) :
    r = ⟨name, e, formulas.mapValues fun _ f => f.normalForm, weight⟩ ∧
      (∀ v ∈ formulas.keys, v ∈ e.summationVariables) ∧
      ∀ v ∈ e.summationVariables, selectFault? name e.vars formulas v = none := by
  rw [make] at h
  split at h
  · cases h
  · split at h
    · cases h
    · rename_i hfind
      split at h
      · cases h
      · rename_i hselects
        cases h
        refine ⟨rfl, fun v hv => ?_, List.findSome?_eq_none_iff.mp hselects⟩
        have hmem := List.find?_eq_none.mp hfind v hv
        simpa using hmem

/-- A rule that is accepted selects only for summation variables of its expression. -/
theorem selects_of_make (h : make name e formulas weight = .ok r) :
    r.expression = e ∧ ∀ v ∈ r.selects.keys, v ∈ e.summationVariables := by
  obtain ⟨rfl, hkeys, -⟩ := eq_of_make h
  refine ⟨rfl, fun v hv => ?_⟩
  obtain ⟨nf, hnf⟩ := FiniteMap.mem_keys_iff.mp hv
  rw [FiniteMap.find?_mapValues, Option.map_eq_some_iff] at hnf
  obtain ⟨f, hf, -⟩ := hnf
  exact hkeys v (FiniteMap.mem_keys_iff.mpr ⟨f, hf⟩)

/-- The select formulas of a rule that is accepted are in normal form. -/
theorem find?_selects_of_make (h : make name e formulas weight = .ok r) (v : SummationVariable) :
    r.selects.find? v = (formulas.find? v).map Formula.normalForm := by
  obtain ⟨rfl, -⟩ := eq_of_make h
  exact FiniteMap.find?_mapValues _ _ _

/-- Select formulas made of checked atoms have the declared numbers of arguments. -/
theorem selectArities_of_make (h : make name e formulas weight = .ok r)
    (hformulas : ∀ v f, formulas.find? v = some f → ∀ a ∈ f.occurrences, a.HasArity)
    (v : SummationVariable) (conjunctions : NormalForm)
    (hv : r.selects.find? v = some conjunctions) :
    ∀ conjunction ∈ conjunctions, ∀ l ∈ conjunction, l.atom.HasArity := by
  intro conjunction hc l hl
  rw [find?_selects_of_make h, Option.map_eq_some_iff] at hv
  obtain ⟨f, hf, rfl⟩ := hv
  exact hformulas v f hf _ (Formula.mem_occurrences_of_mem_expand f false hc hl)

/-- A rule made of checked atoms has the declared numbers of arguments. -/
theorem hasArities_of_make (h : make name e formulas weight = .ok r)
    (hterms : ∀ t ∈ e.terms, t.atom.queryAtom.HasArity)
    (hformulas : ∀ v f, formulas.find? v = some f → ∀ a ∈ f.occurrences, a.HasArity) :
    r.HasArities :=
  ⟨(eq_of_make h).1 ▸ hterms, selectArities_of_make h hformulas⟩

end Acceptance

variable {r : ArithmeticRule} {s : Store} {w w' : Workspace}

/-- What one conjunction adds to a set are the constants under which it holds. -/
theorem mem_rows_selectQuery {θ : Assignment} {v : SummationVariable} {conjunction : Conjunction}
    (ha : ∀ l ∈ conjunction, l.atom.HasArity) {results : ResultList}
    (h : (selectQuery θ v conjunction).evaluate s = .ok results) {c : Constant} :
    c ∈ results.rows.filterMap List.head? ↔
      ∃ σ : Valuation, σ.Extends θ ∧ (∀ l ∈ conjunction, l.HoldsIn s σ) ∧ σ v.plain = c := by
  obtain ⟨hnone, rfl⟩ := Query.evaluate_eq_ok_iff.mp h
  have hsat : ∀ σ, (selectQuery θ v conjunction).SatisfiedBy s σ ↔
      σ.Extends θ ∧ ∀ l ∈ conjunction, l.HoldsIn s σ := fun σ =>
    Query.satisfiedBy_iff_of_no_target rfl
  have harities : (selectQuery θ v conjunction).HasArities := ha
  rw [List.mem_filterMap]
  constructor
  · rintro ⟨row, hrow, hc⟩
    obtain ⟨σ, hσ, rfl⟩ := (Query.mem_rows_answers_iff harities hnone).mp hrow
    obtain ⟨hext, hlits⟩ := (hsat σ).mp hσ
    exact ⟨σ, hext, hlits, Option.some.inj hc⟩
  · rintro ⟨σ, hext, hlits, rfl⟩
    exact ⟨[σ v.plain], (Query.mem_rows_answers_iff harities hnone).mpr
      ⟨σ, (hsat σ).mpr ⟨hext, hlits⟩, rfl⟩, rfl⟩

/-- The set of a summation variable collects what its conjunctions add. -/
theorem runOn_selectAll {θ : Assignment} {v : SummationVariable} {set result : List Constant}
    {conjunctions : NormalForm} (ha : ∀ c ∈ conjunctions, ∀ l ∈ c, l.atom.HasArity)
    (h : (selectAll s θ v set conjunctions).runOn w = (.ok result, w')) :
    w = w' ∧ (OrderedSet.Ascending Constant.le set → OrderedSet.Ascending Constant.le result) ∧
      ∀ c, c ∈ result ↔ c ∈ set ∨ ∃ conjunction ∈ conjunctions, ∃ σ : Valuation,
        σ.Extends θ ∧ (∀ l ∈ conjunction, l.HoldsIn s σ) ∧ σ v.plain = c := by
  induction conjunctions generalizing set w with
  | nil =>
    obtain ⟨rfl, rfl⟩ := Grounding.runOn_pure_eq_ok_iff.mp h
    exact ⟨rfl, id, fun c => ⟨.inl, fun h => h.resolve_right fun ⟨_, hc, _⟩ => by cases hc⟩⟩
  | cons conjunction rest ih =>
    rw [selectAll] at h
    obtain ⟨results, _, hquery, hrest⟩ := Grounding.runOn_bind_eq_ok_iff.mp h
    obtain ⟨heval, rfl⟩ := Grounding.runOn_query_eq_ok_iff.mp hquery
    have hadd := fun c => mem_rows_selectQuery (ha conjunction List.mem_cons_self) heval (c := c)
    obtain ⟨rfl, hascending, hmem⟩ := ih (fun c hc => ha c (List.mem_cons_of_mem _ hc)) hrest
    refine ⟨rfl, fun hset => hascending (Constant.ascending_insertAll hset), fun c => ?_⟩
    rw [hmem, OrderedSet.mem_insertAll, hadd]
    constructor
    · rintro ((hnew | hset) | ⟨d, hd, hrest⟩)
      · exact .inr ⟨conjunction, List.mem_cons_self, hnew⟩
      · exact .inl hset
      · exact .inr ⟨d, List.mem_cons_of_mem _ hd, hrest⟩
    · rintro (hset | ⟨d, hd, hnew⟩)
      · exact .inl (.inr hset)
      · rcases List.mem_cons.mp hd with rfl | hd
        · exact .inl (.inl hnew)
        · exact .inr ⟨d, hd, hnew⟩

section Row

variable {τ : Valuation} (ha : ∀ v conjunctions, r.selects.find? v = some conjunctions →
  ∀ conjunction ∈ conjunctions, ∀ l ∈ conjunction, l.atom.HasArity)

include ha

/-- Filling adds what is selected for the given variables to the sets that there are, and leaves the
others alone. -/
theorem runOn_fillSets {vs : List SummationVariable} {before sets : SelectionSets}
    (h : (r.fillSets s (ResultList.assign r.expression.vars (r.expression.vars.map τ)) before
      vs).runOn w = (.ok sets, w')) :
    w = w' ∧ (∀ v, v ∈ sets.keys ↔ v ∈ before.keys ∨ v ∈ vs) ∧
      (∀ v, OrderedSet.Ascending Constant.le (before.elements v) →
        OrderedSet.Ascending Constant.le (sets.elements v)) ∧
      ∀ v c, c ∈ sets.elements v ↔
        c ∈ before.elements v ∨ v ∈ vs ∧ r.Selects s (r.expression.vars.map τ) v c := by
  induction vs generalizing before w with
  | nil =>
    obtain ⟨rfl, rfl⟩ := Grounding.runOn_pure_eq_ok_iff.mp h
    exact ⟨rfl, by simp, fun v => id, by simp⟩
  | cons u vs ih =>
    rw [fillSets] at h
    obtain ⟨set, _, hset, hrest⟩ := Grounding.runOn_bind_eq_ok_iff.mp h
    have hconjunctions : ∀ c ∈ (r.selects.find? u).getD [], ∀ l ∈ c, l.atom.HasArity := by
      cases hf : r.selects.find? u with
      | none => exact fun c hc => by cases hc
      | some conjunctions => exact ha u conjunctions hf
    obtain ⟨rfl, hascending, hmem⟩ := runOn_selectAll hconjunctions hset
    simp only [ResultList.extends_assign_iff] at hmem
    obtain ⟨rfl, hkeys, hsorted, hadded⟩ := ih hrest
    have helements : ∀ v, SelectionSets.elements (before.insert u set) v =
        if v = u then set else before.elements v := by
      intro v
      rw [SelectionSets.elements, FiniteMap.find?_insert]
      split <;> rfl
    refine ⟨rfl, fun v => ?_, fun v hv => hsorted v ?_, fun v c => ?_⟩
    · rw [hkeys, FiniteMap.mem_keys_insert, List.mem_cons, or_assoc, or_left_comm]
    · rw [helements]
      split
      · rename_i heq
        exact hascending (heq ▸ hv)
      · exact hv
    · rw [hadded, helements, List.mem_cons]
      by_cases heq : v = u
      · subst heq
        have hselected : c ∈ set ↔ c ∈ before.elements v ∨
            r.Selects s (r.expression.vars.map τ) v c := hmem c
        rw [if_pos rfl, hselected]
        simp only [true_or, true_and, or_assoc]
        exact or_congr_right (or_iff_left_of_imp And.right)
      · rw [if_neg heq, or_iff_right heq]

/-- The selection sets of a row list what is selected for it, and nothing else changes. -/
theorem runOn_selectionSets
    (hselects : ∀ v ∈ r.selects.keys, v ∈ r.expression.summationVariables) {sets : SelectionSets}
    (h : (r.selectionSets s (ResultList.assign r.expression.vars (r.expression.vars.map τ))
      r.expression.summationVariables).runOn w = (.ok sets, w')) :
    w = w' ∧ sets.Lists r s (r.expression.vars.map τ) := by
  obtain ⟨rfl, -, hsorted, hadded⟩ := runOn_fillSets ha h
  refine ⟨rfl, fun v => (hsorted v OrderedSet.ascending_nil).nodup, fun v c => ?_⟩
  rw [hadded]
  constructor
  · rintro (hc | ⟨-, hc⟩)
    · cases hc
    · exact hc
  · intro hc
    refine .inr ⟨?_, hc⟩
    by_contra hv
    obtain ⟨conjunction, hmem, -⟩ := hc
    rw [FiniteMap.find?_eq_none_iff.mpr (mt (hselects v) hv)] at hmem
    cases hmem

end Row

end ArithmeticRule

end RuleGrounding
