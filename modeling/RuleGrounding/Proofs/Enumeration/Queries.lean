import Mathlib.Data.List.Forall2
import RuleGrounding.Proofs.Enumeration.Maps
import RuleGrounding.Proofs.OrderedSet
import RuleGrounding.Query.Evaluation

/-!
# Answers up to enumeration

The candidates of a query are sorted, and its pinned variables are only looked up. So the
answers do not depend on the order in which the rows of the store or the pinned variables
are enumerated.
-/

namespace RuleGrounding

/-- A store with the same rows, perhaps enumerated in another order. -/
structure Store.Reorders (s s' : Store) : Prop where
  /-- Partitions have the same roles. -/
  layout : s.layout = s'.layout
  /-- Atoms that are not stored have the same value. -/
  defaultValue : s.defaultValue = s'.defaultValue
  /-- The rows are the same. -/
  rows : s.rows.Reorders s'.rows

section Assignments

variable {θ θ' : Assignment}

theorem Term.value?_eq (h : θ.Reorders θ') (t : Term) : t.value? θ = t.value? θ' := by
  cases t with
  | var v => exact h.find?_eq v
  | const c => rfl

theorem Atom.groundArgs_reorders (h : θ.Reorders θ') (a : Atom) :
    a.groundArgs θ = a.groundArgs θ' := by
  rw [groundArgs, groundArgs]
  induction a.args with
  | nil => rfl
  | cons t ts ih =>
    cases t with
    | const c => rw [instantiate, instantiate, ih]
    | var v => rw [instantiate, instantiate, ih, h.find?_eq]

/-- Assignments that differ in their order only are extended alike by a match. -/
theorem matchTerms_reorders (h : θ.Reorders θ') (terms : List Term) (row : Row) :
    Option.Rel FiniteMap.Reorders (matchTerms θ terms row) (matchTerms θ' terms row) := by
  induction terms generalizing row θ θ' with
  | nil =>
    cases row <;> exact .some h
  | cons t terms ih =>
    cases row with
    | nil => cases t <;> exact .some h
    | cons d row =>
      cases t with
      | const c =>
        rw [matchTerms, matchTerms]
        split
        · exact ih h row
        · exact .none
      | var v =>
        rw [matchTerms, matchTerms, h.find?_eq]
        split
        · split
          · exact ih h row
          · exact .none
        · exact ih (h.insert v d) row

end Assignments

namespace Store

variable {s s' : Store} {θ θ' : Assignment}

theorem Reorders.refl (s : Store) : s.Reorders s := ⟨rfl, rfl, .refl _⟩

theorem Reorders.symm (h : s.Reorders s') : s'.Reorders s :=
  ⟨h.layout.symm, h.defaultValue.symm, h.rows.symm⟩

theorem Reorders.trans {s₁ s₂ s₃ : Store} (h : s₁.Reorders s₂) (h' : s₂.Reorders s₃) :
    s₁.Reorders s₃ :=
  ⟨h.layout.trans h'.layout, h.defaultValue.trans h'.defaultValue, h.rows.trans h'.rows⟩

theorem Reorders.get?_eq (h : s.Reorders s') (k : GroundKey) : s.get? k = s'.get? k := by
  rw [get?, get?, h.layout, h.rows.find?_eq]

theorem Reorders.filterHolds_eq (h : s.Reorders s') (hθ : θ.Reorders θ') :
    s.filterHolds θ = s'.filterHolds θ' := by
  funext l
  have hvalue : s.filterValue = s'.filterValue := by
    funext p args
    simp only [filterValue, h.get?_eq]
  rw [filterHolds, filterHolds, l.atom.groundArgs_reorders hθ, hvalue]

theorem agrees_reorders (hθ : θ.Reorders θ') (terms : List Term) (args : Row) :
    agrees θ terms args = agrees θ' terms args := by
  simp only [agrees, Term.value?_eq hθ]

/-- The candidates are the same, as they are sorted. -/
theorem Reorders.candidates_eq (h : s.Reorders s') (hθ : θ.Reorders θ') (atom : Atom)
    (sees : PartitionId → Bool) : s.candidates atom θ sees = s'.candidates atom θ' sees := by
  rw [candidates, candidates]
  apply OrderedSet.mergeSort_eq_of_perm Constant.rowLe_total (fun _ _ _ => Constant.rowLe_trans)
    (fun _ _ => Constant.rowLe_antisymm)
  simp only [agrees_reorders hθ]
  exact (List.Perm.filter _ h.rows).map _

/-- A join over the same stages finds the same assignments, up to their order. -/
theorem Reorders.join (h : s.Reorders s') (stages : List JoinStage) (hθ : θ.Reorders θ') :
    List.Forall₂ FiniteMap.Reorders (s.join stages θ) (s'.join stages θ') := by
  induction stages generalizing θ θ' with
  | nil => exact .cons hθ .nil
  | cons stage stages ih =>
    rw [Store.join, Store.join]
    refine List.rel_flatMap (R := Eq) (List.forall₂_refl stage.rows) ?_
    rintro row _ rfl
    have hmatch := matchTerms_reorders hθ stage.atom.args row
    revert hmatch
    dsimp only
    generalize matchTerms θ stage.atom.args row = extended
    generalize matchTerms θ' stage.atom.args row = extended'
    intro hmatch
    cases hmatch with
    | none => exact .nil
    | some hextended =>
      dsimp only
      rw [h.filterHolds_eq hextended]
      split
      · exact ih hextended
      · exact .nil

end Store

namespace Query

variable {s s' : Store} {q : Query} {θ : Assignment}

/-- Which filters run after which stage depends on which variables are bound before. -/
theorem schedule_congr {bound bound' : List Variable} (h : ∀ v, v ∈ bound ↔ v ∈ bound')
    (filters : List Literal) (generators : List (Atom × List Row)) :
    schedule bound filters generators = schedule bound' filters generators := by
  induction generators generalizing bound bound' filters with
  | nil => rfl
  | cons g generators ih =>
    have happend : ∀ v, v ∈ bound ++ g.1.vars ↔ v ∈ bound' ++ g.1.vars := by
      intro v
      rw [List.mem_append, List.mem_append, h]
    rw [schedule, schedule]
    simp only [happend]
    rw [ih happend]

/-- Which queries are refused depends on which variables are pinned. -/
theorem fault?_pin (h : q.pinned.Reorders θ) : (q.pin θ).fault? = q.fault? := by
  have hbound : ∀ v, v ∈ (q.pin θ).boundVariables ↔ v ∈ q.boundVariables := by
    intro v
    rw [boundVariables, boundVariables, List.mem_append, List.mem_append]
    exact or_congr_left h.keys_perm.mem_iff.symm
  have hprojection : (q.pin θ).projectionFault? = q.projectionFault? := by
    rw [projectionFault?, projectionFault?]
    simp only [show (q.pin θ).pinned = θ from rfl, ← h.contains_eq]
    rfl
  have hfilter : (q.pin θ).filterFault? = q.filterFault? := by
    rw [filterFault?, filterFault?]
    simp only [hbound]
    rfl
  rw [fault?, fault?, hprojection, hfilter]
  rfl

/-- The generators are joined in the same order, as they have the same candidates. -/
theorem orderedGenerators_pin (hs : s.Reorders s') (h : q.pinned.Reorders θ) :
    (q.pin θ).orderedGenerators s' = q.orderedGenerators s := by
  have hcandidates := fun atom sees => hs.symm.candidates_eq h.symm atom sees
  rw [orderedGenerators, orderedGenerators]
  simp only [show (q.pin θ).pinned = θ from rfl, hcandidates, hs.layout]
  rfl

/-- The solutions are the same up to their order. -/
theorem solutions_pin (hs : s.Reorders s') (h : q.pinned.Reorders θ) :
    List.Forall₂ FiniteMap.Reorders (q.solutions s) ((q.pin θ).solutions s') := by
  have hkeys : ∀ v, v ∈ q.pinned.keys ↔ v ∈ θ.keys := fun v => h.keys_perm.mem_iff
  rw [solutions, solutions]
  simp only [show (q.pin θ).pinned = θ from rfl, show (q.pin θ).filters = q.filters from rfl,
    hs.filterHolds_eq h, hkeys, orderedGenerators_pin hs h, schedule_congr hkeys]
  split
  · exact hs.join _ h
  · exact .nil

/-- A query has the same answers in the same order, however the rows of the store and the pinned
variables are enumerated. -/
theorem answers_pin (hs : s.Reorders s') (h : q.pinned.Reorders θ) :
    (q.pin θ).answers s' = q.answers s := by
  have hrows : ∀ {θs θs' : List Assignment}, List.Forall₂ FiniteMap.Reorders θs θs' →
      (θs'.filterMap fun θ => q.projection.mapM θ.find?) =
        θs.filterMap fun θ => q.projection.mapM θ.find? := by
    intro θs θs' hθs
    induction hθs with
    | nil => rfl
    | cons hθ _ ih => rw [List.filterMap_cons, List.filterMap_cons, ih, funext hθ.find?_eq]
  rw [answers, answers]
  exact congrArg _ (hrows (solutions_pin hs h))

/-- It is refused or answered alike. -/
theorem evaluate_pin (hs : s.Reorders s') (h : q.pinned.Reorders θ) :
    (q.pin θ).evaluate s' = q.evaluate s := by
  rw [evaluate, evaluate, fault?_pin h, answers_pin hs h]

end Query

namespace Store

variable {s s' : Store}

theorem Reorders.evaluate_eq (h : s.Reorders s') (q : Query) : q.evaluate s = q.evaluate s' :=
  (Query.evaluate_pin h (.refl q.pinned)).symm

theorem Reorders.mergeAll_eq (h : s.Reorders s') (acc : ResultList) (qs : List Query) :
    Query.mergeAll s acc qs = Query.mergeAll s' acc qs := by
  induction qs generalizing acc with
  | nil => rfl
  | cons q qs ih => simp only [Query.mergeAll, h.evaluate_eq, ih]

theorem Reorders.evaluateUnion_eq (h : s.Reorders s') (qs : List Query) :
    Query.evaluateUnion s qs = Query.evaluateUnion s' qs := by
  cases qs with
  | nil => rfl
  | cons q qs => simp only [Query.evaluateUnion, h.evaluate_eq, h.mergeAll_eq]

end Store

end RuleGrounding
