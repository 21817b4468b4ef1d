import RuleGrounding.Proofs.Query.Satisfaction

/-!
# Joins

The join finds exactly the valuations under which the atom of every stage is one
of the stage's rows and the filters of every stage hold. The induction is on the
stages; it needs that each filter stands at a stage after which its variables are
bound, which is what the schedule gives.
-/

namespace RuleGrounding

/-- Matching terms with constants succeeds with an extension that a valuation agrees with, exactly
when the valuation agrees with what is bound and instantiates the terms to the constants. -/
theorem exists_matchTerms_iff {σ : Valuation} {terms : List Term} {row : Row}
    (hlen : terms.length = row.length) {θ : Assignment} :
    (∃ θ', matchTerms θ terms row = some θ' ∧ σ.Extends θ') ↔
      σ.Extends θ ∧ terms.map (Term.eval σ) = row := by
  induction terms generalizing row θ with
  | nil =>
    cases row with
    | nil => simp [matchTerms]
    | cons d row => simp at hlen
  | cons t terms ih =>
    cases row with
    | nil => simp at hlen
    | cons d row =>
      have hlen' : terms.length = row.length := by simpa using hlen
      rw [List.map_cons, List.cons.injEq]
      cases t with
      | const c =>
        by_cases hc : c = d
        · simp [matchTerms, Term.eval, hc, ih hlen']
        · simp [matchTerms, Term.eval, hc]
      | var v =>
        cases hv : θ.find? v with
        | none =>
          rw [show Term.eval σ (.var v) = σ v from rfl, ← and_assoc, ← Valuation.extends_insert hv]
          simp only [matchTerms, hv]
          exact ih hlen'
        | some c =>
          by_cases hc : c = d
          · simp only [matchTerms, hv, hc, ite_true]
            rw [ih hlen']
            refine and_congr_right fun hσ => ?_
            rw [show Term.eval σ (.var v) = d from (hσ v c hv).trans hc]
            simp
          · simp only [matchTerms, hv, hc, ite_false, reduceCtorEq, false_and, exists_false,
              false_iff, not_and]
            intro hσ hd
            exact absurd ((hσ v c hv).symm.trans hd) hc

/-- Matching binds the variables of the terms and keeps those that are bound. -/
theorem mem_keys_matchTerms {terms : List Term} {row : Row} (hlen : terms.length = row.length)
    {θ θ' : Assignment} (h : matchTerms θ terms row = some θ') {v : Variable} :
    v ∈ θ'.keys ↔ v ∈ θ.keys ∨ .var v ∈ terms := by
  induction terms generalizing row θ with
  | nil =>
    cases h
    simp
  | cons t terms ih =>
    cases row with
    | nil => simp at hlen
    | cons d row =>
      have hlen' : terms.length = row.length := by simpa using hlen
      cases t with
      | const c =>
        rw [matchTerms] at h
        split at h
        · rw [ih hlen' h]
          simp
        · cases h
      | var u =>
        rw [matchTerms] at h
        split at h
        · rename_i c hu
          split at h
          · rw [ih hlen' h, List.mem_cons, Term.var.injEq]
            constructor
            · exact fun hv => hv.imp id .inr
            · rintro (hv | rfl | hv)
              · exact .inl hv
              · exact .inl (FiniteMap.mem_keys_iff.mpr ⟨c, hu⟩)
              · exact .inr hv
          · cases h
        · rw [ih hlen' h, FiniteMap.mem_keys_insert, List.mem_cons, Term.var.injEq, or_assoc,
            or_left_comm]

/-- The stages of a join fit together: rows are as long as the atoms they are matched with, and
each stage finds the variables of its filters bound. -/
def Staged (bound : List Variable) : List JoinStage → Prop
  | [] => True
  | stage :: stages =>
    (∀ row ∈ stage.rows, stage.atom.args.length = row.length) ∧
      (∀ l ∈ stage.filters, l.generates = false ∧ ∀ v ∈ l.atom.vars, v ∈ bound ++ stage.atom.vars) ∧
      Staged (bound ++ stage.atom.vars) stages

/-- A valuation passes a stage: it takes the atom to one of the rows, and the filters hold. -/
def JoinStage.PassedBy (stage : JoinStage) (s : Store) (σ : Valuation) : Prop :=
  stage.atom.instanceArgs σ ∈ stage.rows ∧ ∀ l ∈ stage.filters, l.HoldsIn s σ

namespace Store

/-- A join finds the assignments of exactly the valuations that pass every stage. -/
theorem exists_mem_join_iff {s : Store} {σ : Valuation} {stages : List JoinStage}
    {bound : List Variable} {θ : Assignment} (hst : Staged bound stages)
    (hθ : ∀ v, v ∈ θ.keys ↔ v ∈ bound) :
    (∃ θ' ∈ s.join stages θ, σ.Extends θ') ↔
      σ.Extends θ ∧ ∀ stage ∈ stages, stage.PassedBy s σ := by
  induction stages generalizing bound θ with
  | nil => simp [join]
  | cons stage stages ih =>
    obtain ⟨hrows, hfilters, hrest⟩ := hst
    -- After a match exactly the variables of the atom are bound in addition.
    have hkeys : ∀ row ∈ stage.rows, ∀ θ₁, matchTerms θ stage.atom.args row = some θ₁ →
        ∀ v, v ∈ θ₁.keys ↔ v ∈ bound ++ stage.atom.vars := by
      intro row hrow θ₁ hm v
      rw [mem_keys_matchTerms (hrows row hrow) hm, hθ, List.mem_append, Atom.mem_vars]
    have hpass : ∀ row ∈ stage.rows, ∀ θ₁, matchTerms θ stage.atom.args row = some θ₁ →
        σ.Extends θ₁ → (stage.filters.all (s.filterHolds θ₁) = true ↔
          ∀ l ∈ stage.filters, l.HoldsIn s σ) := by
      intro row hrow θ₁ hm hσ
      rw [List.all_eq_true]
      refine forall₂_congr fun l hl => ?_
      exact filterHolds_iff (hfilters l hl).1 hσ fun v hv =>
        (hkeys row hrow θ₁ hm v).mpr ((hfilters l hl).2 v hv)
    rw [join, List.forall_mem_cons]
    constructor
    · rintro ⟨θ', hmem, hσ⟩
      obtain ⟨row, hrow, hmem⟩ := List.mem_flatMap.mp hmem
      cases hm : matchTerms θ stage.atom.args row with
      | none => rw [hm] at hmem; cases hmem
      | some θ₁ =>
        simp only [hm] at hmem
        split at hmem
        · rename_i hall
          obtain ⟨hσ₁, hstages⟩ :=
            (ih hrest (hkeys row hrow θ₁ hm)).mp ⟨θ', hmem, hσ⟩
          obtain ⟨hσ₀, hinst⟩ := (exists_matchTerms_iff (hrows row hrow)).mp ⟨θ₁, hm, hσ₁⟩
          refine ⟨hσ₀, ⟨?_, (hpass row hrow θ₁ hm hσ₁).mp hall⟩, hstages⟩
          rw [Atom.instanceArgs, hinst]
          exact hrow
        · cases hmem
    · rintro ⟨hσ, ⟨hrow, hfil⟩, hstages⟩
      obtain ⟨θ₁, hm, hσ₁⟩ := (exists_matchTerms_iff (hrows _ hrow)).mpr ⟨hσ, rfl⟩
      obtain ⟨θ', hmem, hσ'⟩ := (ih hrest (hkeys _ hrow θ₁ hm)).mpr ⟨hσ₁, hstages⟩
      refine ⟨θ', List.mem_flatMap.mpr ⟨_, hrow, ?_⟩, hσ'⟩
      simp only [hm, (hpass _ hrow θ₁ hm hσ₁).mpr hfil, ite_true]
      exact hmem

/-- A join binds the variables that were bound and those of its stages. -/
theorem mem_keys_join {s : Store} {stages : List JoinStage} {bound : List Variable}
    {θ θ' : Assignment} (hst : Staged bound stages) (h : θ' ∈ s.join stages θ) {v : Variable} :
    v ∈ θ'.keys ↔ v ∈ θ.keys ∨ ∃ stage ∈ stages, v ∈ stage.atom.vars := by
  induction stages generalizing bound θ with
  | nil =>
    rw [join, List.mem_singleton] at h
    simp [h]
  | cons stage stages ih =>
    obtain ⟨hrows, -, hrest⟩ := hst
    rw [join] at h
    obtain ⟨row, hrow, h⟩ := List.mem_flatMap.mp h
    cases hm : matchTerms θ stage.atom.args row with
    | none => rw [hm] at h; cases h
    | some θ₁ =>
      simp only [hm] at h
      split at h
      · rw [ih hrest h, mem_keys_matchTerms (hrows row hrow) hm, or_assoc, ← Atom.mem_vars]
        simp
      · cases h

end Store

namespace Query

/-- Scheduling keeps the generators in their order. -/
theorem map_schedule (bound : List Variable) (filters : List Literal)
    (gens : List (Atom × List Row)) :
    (schedule bound filters gens).map (fun stage => (stage.atom, stage.rows)) = gens := by
  induction gens generalizing bound filters with
  | nil => rfl
  | cons g gens ih => rw [schedule, List.map_cons, ih]

/-- Every filter is attached to some stage if the generators bind its variables, and no other
filters are. -/
theorem forall_filters_schedule {P : Literal → Prop} {bound : List Variable}
    {filters : List Literal} {gens : List (Atom × List Row)}
    (hne : ∀ l ∈ filters, ¬ ∀ v ∈ l.atom.vars, v ∈ bound)
    (hb : ∀ l ∈ filters, ∀ v ∈ l.atom.vars, v ∈ bound ++ gens.flatMap fun g => g.1.vars) :
    (∀ stage ∈ schedule bound filters gens, ∀ l ∈ stage.filters, P l) ↔ ∀ l ∈ filters, P l := by
  induction gens generalizing bound filters with
  | nil =>
    simp only [List.flatMap_nil, List.append_nil] at hb
    rw [schedule]
    refine iff_of_true (by simp) fun l hl => absurd (hb l hl) (hne l hl)
  | cons g gens ih =>
    obtain ⟨atom, rows⟩ := g
    rw [schedule, List.forall_mem_cons]
    simp only [List.partition_eq_filter_filter]
    rw [ih]
    · constructor
      · rintro ⟨hready, hlater⟩ l hl
        by_cases hr : (l.atom.vars.all fun v => decide (v ∈ bound ++ atom.vars)) = true
        · exact hready l (List.mem_filter.mpr ⟨hl, hr⟩)
        · exact hlater l (List.mem_filter.mpr ⟨hl, by simpa using hr⟩)
      · exact fun hall => ⟨fun l hl => hall l (List.mem_filter.mp hl).1,
          fun l hl => hall l (List.mem_filter.mp hl).1⟩
    · intro l hl hall
      have hr := (List.mem_filter.mp hl).2
      simp only [Function.comp_apply, Bool.not_eq_true', List.all_eq_false,
        decide_eq_true_eq] at hr
      obtain ⟨v, hv, hnot⟩ := hr
      exact hnot (hall v hv)
    · intro l hl v hv
      have := hb l (List.mem_filter.mp hl).1 v hv
      simpa only [List.flatMap_cons, List.append_assoc] using this

/-- Scheduled stages fit together. -/
theorem staged_schedule {bound : List Variable} {filters : List Literal}
    {gens : List (Atom × List Row)} (hf : ∀ l ∈ filters, l.generates = false)
    (hrows : ∀ g ∈ gens, ∀ row ∈ g.2, g.1.args.length = row.length) :
    Staged bound (schedule bound filters gens) := by
  induction gens generalizing bound filters with
  | nil => trivial
  | cons g gens ih =>
    obtain ⟨atom, rows⟩ := g
    rw [schedule]
    simp only [List.partition_eq_filter_filter]
    refine ⟨hrows _ List.mem_cons_self, fun l hl => ?_, ih ?_ ?_⟩
    · obtain ⟨hl, hr⟩ := List.mem_filter.mp hl
      refine ⟨hf l hl, fun v hv => ?_⟩
      simpa using List.all_eq_true.mp hr v hv
    · exact fun l hl => hf l (List.mem_filter.mp hl).1
    · exact fun g hg => hrows g (List.mem_cons_of_mem _ hg)

end Query

end RuleGrounding
