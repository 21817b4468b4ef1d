import RuleGrounding.Activation

/-!
# The stages of an activation

What each stage of an activation may do, as a list of its outcomes: where it stops,
what it returns then, and what it leaves behind.
-/

namespace RuleGrounding

theorem mapError_eq_ok_iff {ε ε' α : Type} {f : ε → ε'} {e : Except ε α} {a : α} :
    e.mapError f = .ok a ↔ e = .ok a := by
  cases e with
  | error fault => exact iff_of_false (fun h => by cases h) (fun h => by cases h)
  | ok b => exact ⟨fun h => congrArg _ (Except.ok.inj h), fun h => congrArg _ (Except.ok.inj h)⟩

theorem map_eq_ok_iff {ε α β : Type} {f : α → β} {e : Except ε α} {b : β} :
    e.map f = .ok b ↔ ∃ a, e = .ok a ∧ f a = b := by
  constructor
  · intro h
    cases e with
    | error fault => cases h
    | ok a => exact ⟨a, rfl, Except.ok.inj h⟩
  · rintro ⟨a, rfl, rfl⟩
    rfl

theorem map_eq_error_iff {ε α β : Type} {f : α → β} {e : Except ε α} {fault : ε} :
    e.map f = .error fault ↔ e = .error fault := by
  cases e with
  | error fault' => exact ⟨fun h => congrArg _ (Except.error.inj h), congrArg _⟩
  | ok a => exact iff_of_false (fun h => by cases h) (fun h => by cases h)

/-- Grounding a rule for staged atoms stops before it starts, or grounds the rows of a union. -/
theorem LogicalRule.groundStaged_cases {r : LogicalRule} {s : Store} {predicates : List Predicate}
    {w w' : Workspace} {result : Except ActivationFault Nat}
    (h : r.groundStaged s predicates w = (result, w')) :
    (w' = w ∧ (result = .error (.noLazyTargets r.name) ∨ ∃ fault, result = .error (.query fault))) ∨
      ∃ results ground, Query.evaluateUnion s (r.stagedQueries predicates) = .ok results ∧
        (r.groundResults s results).runOn w = (ground, w') ∧
        result = ground.mapError .grounding := by
  rw [groundStaged] at h
  dsimp only at h
  split at h
  · obtain ⟨rfl, rfl⟩ := Prod.mk.inj h
    exact .inl ⟨rfl, .inl rfl⟩
  · split at h
    · obtain ⟨rfl, rfl⟩ := Prod.mk.inj h
      exact .inl ⟨rfl, .inr ⟨_, rfl⟩⟩
    · rename_i results heval
      obtain ⟨rfl, rfl⟩ := Prod.mk.inj h
      exact .inr ⟨results, _, heval, rfl, rfl⟩

/-- Grounding the rule of an index and then those of others skips it, stops with it, or goes on. -/
theorem RuleBase.groundStaged_cons_cases {b : RuleBase} {s : Store} {predicates : List Predicate}
    {index : Nat} {rest : List Nat} {w w' : Workspace} {result : Except ActivationFault Nat}
    (h : b.groundStaged s predicates (index :: rest) w = (result, w')) :
    ((∀ r, b.rules[index]? ≠ some (.logical r)) ∧
        b.groundStaged s predicates rest w = (result, w')) ∨
      ∃ r, b.rules[index]? = some (.logical r) ∧
        ((∃ fault, r.groundStaged s predicates w = (.error fault, w') ∧ result = .error fault) ∨
          ∃ n w₁ later, r.groundStaged s predicates w = (.ok n, w₁) ∧
            b.groundStaged s predicates rest w₁ = (later, w') ∧ result = later.map (n + ·)) := by
  rw [groundStaged] at h
  split at h
  · rename_i r hr
    refine .inr ⟨r, hr, ?_⟩
    split at h
    · rename_i heq
      obtain ⟨rfl, rfl⟩ := Prod.mk.inj h
      exact .inl ⟨_, heq, rfl⟩
    · rename_i n w₁ heq
      split at h
      · rename_i heq'
        obtain ⟨rfl, rfl⟩ := Prod.mk.inj h
        exact .inr ⟨n, w₁, _, heq, heq', rfl⟩
      · rename_i heq'
        obtain ⟨rfl, rfl⟩ := Prod.mk.inj h
        exact .inr ⟨n, w₁, _, heq, heq', rfl⟩
  · rename_i hnone
    exact .inl ⟨hnone, h⟩

/-- Moving out of the lazy partition is never refused. -/
theorem Store.moveToWrite_lazy (s : Store) (p : Predicate) :
    ∃ n t, s.moveToWrite p s.layout.lazy = .ok (n, t) ∧ t.layout = s.layout := by
  rw [moveToWrite, s.layout.contains_lazy]
  exact ⟨_, _, rfl, rfl⟩

namespace Session

variable {x y : Session} {b : RuleBase} {atoms : List Handle}

/-- The standard predicates of some instances, each once. -/
def standardPredicates (atoms : List Handle) : List Predicate :=
  distinct ((atoms.map fun h => h.key.predicate).filter Predicate.isStandard)

/-- Staging stores the atoms and takes them over into the resolved ones. -/
theorem stage_eq_ok (h : x.stage atoms = .ok y) :
    ∃ store, x.store.commit (atoms.map fun h => (h.key, x.pool.value h)) x.store.layout.lazy =
        .ok store ∧
      y = ⟨store, { x.work with
        manager := x.manager.adopt atoms (.unobserved x.store.layout.lazy) }⟩ := by
  rw [stage, commit] at h
  cases hc : x.store.commit (atoms.map fun h => (h.key, x.pool.value h)) x.store.layout.lazy with
  | error fault =>
    rw [hc] at h
    cases h
  | ok store =>
    rw [hc] at h
    cases h
    exact ⟨store, rfl, rfl⟩

/-- Staging fails only if the store refuses the atoms. -/
theorem stage_eq_error_iff {fault : ActivationFault} : x.stage atoms = .error fault ↔
    ∃ refusal, x.commit atoms x.store.layout.lazy = .error refusal ∧ fault = .store refusal := by
  rw [stage]
  cases x.commit atoms x.store.layout.lazy with
  | error refusal => simp [eq_comm]
  | ok stored => simp

/-- Unstaging always succeeds. -/
theorem unstage_fst (x : Session) (ps : List Predicate) : (x.unstage ps).1 = .ok () := by
  induction ps generalizing x with
  | nil => rfl
  | cons p ps ih =>
    obtain ⟨n, t, h, -⟩ := x.store.moveToWrite_lazy p
    rw [unstage, moveToWrite, h]
    exact ih _

/-- Activating atoms stops when they are not staged or when a rule is not grounded, or goes through
all stages. -/
theorem activateAtoms_cases {result : Except ActivationFault Unit}
    (h : x.activateAtoms b atoms = (result, y)) :
    (∃ fault, x.stage atoms = .error fault ∧ result = .error fault ∧ y = x) ∨
      ∃ staged ground w, x.stage atoms = .ok staged ∧
        b.groundStaged staged.store (standardPredicates atoms)
          ((Subscriptions.ofRules b).rulesFor (standardPredicates atoms)) staged.work =
            (ground, w) ∧
        ((∃ fault, ground = .error fault ∧ result = .error fault ∧ y = { staged with work := w }) ∨
          ∃ n, ground = .ok n ∧
            unstage { staged with work := w } (standardPredicates atoms) = (result, y)) := by
  rw [activateAtoms] at h
  split at h
  · rename_i hstage
    obtain ⟨rfl, rfl⟩ := Prod.mk.inj h
    exact .inl ⟨_, hstage, rfl, rfl⟩
  · rename_i staged hstage
    dsimp only at h
    split at h
    · rename_i hground
      obtain ⟨rfl, rfl⟩ := Prod.mk.inj h
      exact .inr ⟨staged, _, _, hstage, hground, .inl ⟨_, rfl, rfl, rfl⟩⟩
    · rename_i hground
      exact .inr ⟨staged, _, _, hstage, hground, .inr ⟨_, rfl, h⟩⟩

/-- Activation does nothing, or activates the eligible atoms and counts them. -/
theorem activate_cases {result : Except ActivationFault Nat} (h : x.activate b = (result, y)) :
    (result = .ok 0 ∧ y = x) ∨
      ∃ threshold activated, x.manager.policy.threshold? = some threshold ∧
        x.activateAtoms b (x.eligible threshold) = (activated, y) ∧
        result = activated.map fun _ => (x.eligible threshold).length := by
  rw [activate] at h
  split at h
  · obtain ⟨rfl, rfl⟩ := Prod.mk.inj h
    exact .inl ⟨rfl, rfl⟩
  · rename_i threshold hpolicy
    dsimp only at h
    split at h
    · obtain ⟨rfl, rfl⟩ := Prod.mk.inj h
      exact .inl ⟨rfl, rfl⟩
    · obtain ⟨rfl, rfl⟩ := Prod.mk.inj h
      exact .inr ⟨threshold, _, hpolicy, rfl, rfl⟩

/-- Under a deferring manager activation finds no eligible atoms and does nothing, or activates
them and counts them. -/
theorem activate_deferring_cases {threshold : Float} {result : Except ActivationFault Nat}
    (hpolicy : x.manager.policy = .deferring threshold) (h : x.activate b = (result, y)) :
    (x.eligible threshold = [] ∧ result = .ok 0 ∧ y = x) ∨
      (x.eligible threshold ≠ [] ∧ ∃ activated,
        x.activateAtoms b (x.eligible threshold) = (activated, y) ∧
        result = activated.map fun _ => (x.eligible threshold).length) := by
  rw [activate, hpolicy, Policy.threshold?] at h
  dsimp only at h
  split at h
  · rename_i hnone
    obtain ⟨rfl, rfl⟩ := Prod.mk.inj h
    exact .inl ⟨List.isEmpty_iff.mp hnone, rfl, rfl⟩
  · rename_i hsome
    obtain ⟨rfl, rfl⟩ := Prod.mk.inj h
    exact .inr ⟨mt List.isEmpty_iff.mpr hsome, _, rfl, rfl⟩

/-- The eligible atoms are the lazy ones that have reached the threshold. -/
theorem mem_eligible {threshold : Float} {h : Handle} : h ∈ x.eligible threshold ↔
    h ∈ x.manager.lazy.values ∧ threshold ≤ x.pool.value h := by
  rw [eligible, (ascending_perm _ _).mem_iff, List.mem_filter, decide_eq_true_eq]

end Session

end RuleGrounding
