import RuleGrounding.Proofs.Query.Answers

/-!
# Unions of answers

Queries that return the same distinct variables have a union whose rows are those
of their answers, each once.
-/

namespace RuleGrounding

/-- Looking up all positions of a list in turn gives the list. -/
theorem filterMap_getElem?_range {α : Type} (xs : List α) :
    (List.range xs.length).filterMap (xs[·]?) = xs := by
  induction xs with
  | nil => rfl
  | cons x xs ih =>
    rw [List.length_cons, List.range_succ_eq_map, List.filterMap_cons, List.filterMap_map]
    exact congrArg (x :: ·) ih

namespace ResultList

private theorem mapM_succ {vs : List Variable} {f g : Variable → Option Nat}
    (h : ∀ v ∈ vs, f v = (g v).map Nat.succ) :
    vs.mapM f = (vs.mapM g).map (List.map Nat.succ) := by
  induction vs with
  | nil => rfl
  | cons v vs ih =>
    rw [List.mapM_cons, List.mapM_cons, h v List.mem_cons_self,
      ih fun u hu => h u (List.mem_cons_of_mem v hu)]
    cases g v <;> cases vs.mapM g <;> rfl

private theorem mapM_idxOf? {vs : List Variable} (h : vs.Nodup) :
    vs.mapM vs.idxOf? = some (List.range vs.length) := by
  induction vs with
  | nil => rfl
  | cons v vs ih =>
    obtain ⟨hv, hvs⟩ := List.nodup_cons.mp h
    have hlater : ∀ u ∈ vs, (v :: vs).idxOf? u = (vs.idxOf? u).map Nat.succ := by
      intro u hu
      have hne : (v == u) = false := by
        rw [beq_eq_false_iff_ne]
        rintro rfl
        exact hv hu
      rw [List.idxOf?_cons, hne]
      rfl
    rw [List.mapM_cons, mapM_succ hlater, ih hvs, List.idxOf?_cons, beq_self_eq_true,
      List.length_cons, List.range_succ_eq_map]
    rfl

/-- Merging a list over the same distinct variables appends its rows. -/
theorem merge_eq_pushAll {r other : ResultList} (hvars : other.vars = r.vars)
    (hnodup : r.vars.Nodup) (hlength : ∀ row ∈ other.rows, row.length = r.vars.length) :
    r.merge other = r.pushAll other.rows := by
  have hcolumns : r.vars.mapM other.index? = some (List.range r.vars.length) := by
    have hindex : other.index? = r.vars.idxOf? := funext fun v => by rw [index?, hvars]
    rw [hindex, mapM_idxOf? hnodup]
  rw [merge, hcolumns]
  refine congrArg r.pushAll ?_
  rw [List.map_congr_left fun row hrow => ?_, List.map_id]
  rw [← hlength row hrow]
  exact filterMap_getElem?_range row

end ResultList

namespace Query

variable {s : Store} {vs : List Variable}

theorem vars_answers (q : Query) (s : Store) : (q.answers s).vars = q.projection := by
  rw [answers, ResultList.vars_pushAll]
  rfl

theorem nodup_answers (q : Query) (s : Store) : (q.answers s).rows.Nodup :=
  ResultList.nodup_pushAll List.nodup_nil _

/-- Merging the answers to several queries over the same distinct variables collects their rows. -/
theorem mergeAll_eq_ok (hnodup : vs.Nodup) {qs : List Query}
    (hqs : ∀ q ∈ qs, q.HasArities ∧ q.projection = vs) {acc r : ResultList}
    (hacc : acc.vars = vs ∧ acc.rows.Nodup) (h : mergeAll s acc qs = .ok r) :
    r.vars = vs ∧ r.rows.Nodup ∧
      ∀ t, t ∈ r.rows ↔ t ∈ acc.rows ∨ ∃ q ∈ qs, ∃ σ, q.SatisfiedBy s σ ∧ t = vs.map σ := by
  induction qs generalizing acc with
  | nil =>
    cases h
    exact ⟨hacc.1, hacc.2, fun t => ⟨.inl, fun h => h.resolve_right fun ⟨_, hq, _⟩ =>
      absurd hq List.not_mem_nil⟩⟩
  | cons q qs ih =>
    obtain ⟨harities, hprojection⟩ := hqs q List.mem_cons_self
    rw [mergeAll] at h
    split at h
    · cases h
    · rename_i answer heval
      obtain ⟨hnone, rfl⟩ := evaluate_eq_ok_iff.mp heval
      have hrows : ∀ t, t ∈ (q.answers s).rows ↔ ∃ σ, q.SatisfiedBy s σ ∧ t = vs.map σ := by
        intro t
        rw [mem_rows_answers_iff harities hnone, hprojection]
      have hmerge : acc.merge (q.answers s) = acc.pushAll (q.answers s).rows := by
        refine ResultList.merge_eq_pushAll ?_ (hacc.1 ▸ hnodup) fun row hrow => ?_
        · rw [vars_answers, hprojection, hacc.1]
        · obtain ⟨σ, -, rfl⟩ := (hrows row).mp hrow
          rw [List.length_map, hacc.1]
      rw [hmerge] at h
      obtain ⟨hvars, hdistinct, hmem⟩ := ih (fun q' hq' => hqs q' (List.mem_cons_of_mem q hq'))
        ⟨(ResultList.vars_pushAll ..).trans hacc.1, ResultList.nodup_pushAll hacc.2 _⟩ h
      refine ⟨hvars, hdistinct, fun t => ?_⟩
      rw [hmem, ResultList.mem_rows_pushAll, hrows, or_assoc]
      simp only [List.mem_cons, exists_eq_or_imp]

/-- The union of the answers to queries over the same distinct variables. -/
theorem evaluateUnion_eq_ok (hnodup : vs.Nodup) {qs : List Query}
    (hqs : ∀ q ∈ qs, q.HasArities ∧ q.projection = vs) {r : ResultList}
    (h : evaluateUnion s qs = .ok r) :
    r.vars = vs ∧ r.rows.Nodup ∧
      ∀ t, t ∈ r.rows ↔ ∃ q ∈ qs, ∃ σ, q.SatisfiedBy s σ ∧ t = vs.map σ := by
  cases qs with
  | nil => cases h
  | cons q qs =>
    obtain ⟨harities, hprojection⟩ := hqs q List.mem_cons_self
    rw [evaluateUnion] at h
    split at h
    · cases h
    · rename_i answer heval
      obtain ⟨hnone, rfl⟩ := evaluate_eq_ok_iff.mp heval
      obtain ⟨hvars, hdistinct, hmem⟩ :=
        mergeAll_eq_ok hnodup (fun q' hq' => hqs q' (List.mem_cons_of_mem q hq'))
          ⟨(vars_answers q s).trans hprojection, nodup_answers q s⟩ h
      refine ⟨hvars, hdistinct, fun t => ?_⟩
      rw [hmem, mem_rows_answers_iff harities hnone, hprojection]
      simp only [List.mem_cons, exists_eq_or_imp]

/-- Answers are merged as long as no query is refused. -/
theorem exists_mergeAll {qs : List Query} (h : ∀ q ∈ qs, q.fault? = none) (acc : ResultList) :
    ∃ r, mergeAll s acc qs = .ok r := by
  induction qs generalizing acc with
  | nil => exact ⟨acc, rfl⟩
  | cons q qs ih =>
    rw [mergeAll, evaluate_eq_ok_iff.mpr ⟨h q List.mem_cons_self, rfl⟩]
    exact ih (fun q' hq' => h q' (List.mem_cons_of_mem q hq')) _

/-- Queries have a union if there is one at all and none is refused. -/
theorem exists_evaluateUnion {qs : List Query} (hne : qs ≠ [])
    (h : ∀ q ∈ qs, q.fault? = none) : ∃ r, evaluateUnion s qs = .ok r := by
  cases qs with
  | nil => exact absurd rfl hne
  | cons q qs =>
    rw [evaluateUnion, evaluate_eq_ok_iff.mpr ⟨h q List.mem_cons_self, rfl⟩]
    exact exists_mergeAll (fun q' hq' => h q' (List.mem_cons_of_mem q hq')) _

end Query

end RuleGrounding
