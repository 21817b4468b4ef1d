import RuleGrounding.Proofs.Valuation
import RuleGrounding.Query.Results

/-!
# Result lists as sets

Pushing rows keeps them distinct and makes the row set the union. Merging a list
over the same variables pushes its rows, and a row read as an assignment gives
each variable its constant.
-/

namespace RuleGrounding

namespace ResultList

@[simp] theorem vars_push (r : ResultList) (row : Row) : (r.push row).vars = r.vars := by
  rw [push]
  split <;> rfl

theorem mem_rows_push {r : ResultList} {row t : Row} :
    t ∈ (r.push row).rows ↔ t ∈ r.rows ∨ t = row := by
  rw [push]
  split
  · rename_i h
    exact ⟨.inl, fun ht => ht.elim id fun he => he ▸ h⟩
  · simp

theorem nodup_push {r : ResultList} (h : r.rows.Nodup) (row : Row) : (r.push row).rows.Nodup := by
  rw [push]
  split
  · exact h
  · rename_i hrow
    rw [List.nodup_append]
    refine ⟨h, by simp, ?_⟩
    rintro a ha b hb rfl
    exact hrow (List.mem_singleton.mp hb ▸ ha)

@[simp] theorem vars_pushAll (r : ResultList) (rows : List Row) :
    (r.pushAll rows).vars = r.vars := by
  induction rows generalizing r with
  | nil => rfl
  | cons row rows ih => rw [pushAll, List.foldl_cons, ← pushAll, ih, vars_push]

/-- Pushing rows makes the row set the union. -/
theorem mem_rows_pushAll {r : ResultList} {rows : List Row} {t : Row} :
    t ∈ (r.pushAll rows).rows ↔ t ∈ r.rows ∨ t ∈ rows := by
  induction rows generalizing r with
  | nil => simp [pushAll]
  | cons row rows ih =>
    rw [pushAll, List.foldl_cons, ← pushAll, ih, mem_rows_push, List.mem_cons, or_assoc]

/-- Pushing rows keeps the rows distinct. -/
theorem nodup_pushAll {r : ResultList} (h : r.rows.Nodup) (rows : List Row) :
    (r.pushAll rows).rows.Nodup := by
  induction rows generalizing r with
  | nil => exact h
  | cons row rows ih =>
    rw [pushAll, List.foldl_cons, ← pushAll]
    exact ih (nodup_push h row)

private theorem find?_insertAll_zip (m : Assignment) (τ : Valuation) (vs : List Variable)
    (v : Variable) :
    (m.insertAll (vs.zip (vs.map τ))).find? v = if v ∈ vs then some (τ v) else m.find? v := by
  induction vs generalizing m with
  | nil => rfl
  | cons u vs ih =>
    rw [List.map_cons, List.zip_cons_cons, FiniteMap.insertAll_cons, ih, FiniteMap.find?_insert]
    by_cases hv : v ∈ vs
    · rw [if_pos hv, if_pos (List.mem_cons_of_mem u hv)]
    · rw [if_neg hv]
      by_cases hu : v = u
      · rw [if_pos hu, if_pos (hu ▸ List.mem_cons_self), hu]
      · rw [if_neg hu, if_neg (mt List.mem_cons.mp (not_or.mpr ⟨hu, hv⟩))]

/-- A row that lists the constants of a valuation is read as that valuation on its variables. -/
theorem find?_assign (τ : Valuation) (vs : List Variable) (v : Variable) :
    (assign vs (vs.map τ)).find? v = if v ∈ vs then some (τ v) else none :=
  find?_insertAll_zip ∅ τ vs v

/-- Such a row binds its variables. -/
theorem mem_keys_assign (τ : Valuation) {vs : List Variable} {v : Variable} (hv : v ∈ vs) :
    v ∈ (assign vs (vs.map τ)).keys :=
  FiniteMap.mem_keys_iff.mpr ⟨τ v, by rw [find?_assign, if_pos hv]⟩

/-- The valuations that extend a row are those that list the same constants. -/
theorem extends_assign_iff {σ τ : Valuation} {vs : List Variable} :
    σ.Extends (assign vs (vs.map τ)) ↔ vs.map σ = vs.map τ := by
  rw [List.map_inj_left]
  constructor
  · exact fun h v hv => h v (τ v) (by rw [find?_assign, if_pos hv])
  · intro h v c hc
    rw [find?_assign] at hc
    split at hc
    · rename_i hv
      rw [h v hv]
      exact Option.some.inj hc
    · cases hc

end ResultList

end RuleGrounding
