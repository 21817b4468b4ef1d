import RuleGrounding.Proofs.Activation.Effects
import RuleGrounding.Proofs.Store.Contents

/-!
# How sessions change

An action resolves keys over the store, sets a value, activates atoms, or writes to the store.
Whatever it does, what becomes of the store is what becomes of it by writes, so what writes
keep is kept by sessions.
-/

namespace RuleGrounding

namespace Store

variable {s t u : Store}

/-- One store is what becomes of another by writes, of which some may be refused. -/
def Becomes (s t : Store) : Prop := ∃ writes, t = s.writeAll writes

theorem Becomes.refl (s : Store) : s.Becomes s := ⟨[], rfl⟩

theorem Becomes.trans (h : s.Becomes t) (h' : t.Becomes u) : s.Becomes u := by
  obtain ⟨writes, rfl⟩ := h
  obtain ⟨later, rfl⟩ := h'
  exact ⟨writes ++ later, List.foldl_append.symm⟩

theorem becomes_of_commit {atoms : List (GroundKey × Float)} {p : PartitionId}
    (h : s.commit atoms p = .ok t) : s.Becomes t := by
  refine ⟨[.commit atoms p], ?_⟩
  rw [writeAll, List.foldl_cons, write, h]
  rfl

theorem becomes_of_moveToWrite {predicate : Predicate} {source : PartitionId} {n : Nat}
    (h : s.moveToWrite predicate source = .ok (n, t)) : s.Becomes t := by
  refine ⟨[.move predicate source], ?_⟩
  rw [writeAll, List.foldl_cons, write, h]
  rfl

/-- Writing keeps every row one that may be written. -/
theorem Becomes.sound (h : s.Becomes t) (hs : s.Sound) : t.Sound := by
  obtain ⟨writes, rfl⟩ := h
  exact hs.writeAll writes

theorem Becomes.defaultValue (h : s.Becomes t) : t.defaultValue = s.defaultValue := by
  obtain ⟨writes, rfl⟩ := h
  exact s.defaultValue_writeAll writes

end Store

namespace Session

variable {x y : Session}

/-- The atoms that an action stores directly, unless it is refused. -/
def stored (x : Session) : Action → List GroundKey
  | .insert k value p =>
    match x.store.insert k value p with
    | .ok _ => [k]
    | .error _ => []
  | .commit atoms p =>
    match x.store.commit atoms p with
    | .ok _ => atoms.map Prod.fst
    | .error _ => []
  | _ => []

/-- How an action may change a session, with the atoms that it stores directly. -/
inductive Changes (x : Session) : List GroundKey → Session → Prop where
  /-- Keys are resolved over the store, or nothing happens. -/
  | extend {w : Workspace} (h : x.manager.Extends x.store w.manager) :
    Changes x [] { x with work := w }
  /-- An instance gets a value. -/
  | setValue (a : Handle) (value : Float) : Changes x [] (x.setValue a value)
  /-- Atoms are activated, or the activation fails. -/
  | activate {b : RuleBase} {result : Except ActivationFault Nat} {y : Session}
    (h : x.activate b = (result, y)) : Changes x [] y
  /-- Atoms are stored. -/
  | commit {atoms : List (GroundKey × Float)} {p : PartitionId} {store : Store}
    (h : x.store.commit atoms p = .ok store) : Changes x (atoms.map Prod.fst) { x with store }
  /-- Stored atoms are moved. -/
  | move {p : Predicate} {source : PartitionId} {n : Nat} {store : Store}
    (h : x.store.moveToWrite p source = .ok (n, store)) : Changes x [] { x with store }

theorem changes_perform (x : Session) (a : Action) : x.Changes (x.stored a) (x.perform a) := by
  have hnothing : x.Changes [] x := .extend (.refl x.store x.manager)
  cases a with
  | resolve p args =>
    rw [perform]
    cases hr : x.resolve p args with
    | error fault => exact hnothing
    | ok r =>
      obtain ⟨m, hm, hy⟩ := resolve_eq_ok hr
      obtain ⟨k, -, hk⟩ := Manager.resolve_eq_ok_iff.mp hm
      dsimp only
      rw [hy]
      exact .extend (Manager.extends_of_resolveKey hk)
  | setValue h value => exact .setValue h value
  | ground r => exact .extend (r.extending_ground x.store x.work).manager
  | groundResults r results =>
    exact .extend (r.extending_groundResults x.store results x.work).manager
  | groundAll b => exact .extend (Rule.extending_groundAll x.store b.rules x.work).manager
  | activate b => exact .activate (Prod.ext rfl rfl)
  | insert k value p =>
    rw [perform, insert, stored, Store.insert_eq_commit]
    cases hcommit : x.store.commit [(k, value)] p with
    | error fault => exact hnothing
    | ok store => exact .commit hcommit
  | commit atoms p =>
    rw [perform, stored]
    cases hcommit : x.store.commit atoms p with
    | error fault => exact hnothing
    | ok store => exact .commit hcommit
  | move p source =>
    rw [perform, moveToWrite]
    cases hmove : x.store.moveToWrite p source with
    | error fault => exact hnothing
    | ok moved => exact .move hmove

/-- An action sets a value, or it activates atoms, or it resolves keys at most. -/
theorem manager_perform_cases (x : Session) (a : Action) :
    (∃ h value, a = .setValue h value) ∨ (∃ b, a = .activate b) ∨
      x.manager.Extends x.store (x.perform a).manager := by
  cases a with
  | setValue h value => exact .inl ⟨h, value, rfl⟩
  | activate b => exact .inr (.inl ⟨b, rfl⟩)
  | resolve p args =>
    rw [perform]
    cases hr : x.resolve p args with
    | error fault => exact .inr (.inr (.refl _ _))
    | ok r =>
      obtain ⟨m, hm, hy⟩ := resolve_eq_ok hr
      obtain ⟨k, -, hk⟩ := Manager.resolve_eq_ok_iff.mp hm
      dsimp only
      rw [hy]
      exact .inr (.inr (Manager.extends_of_resolveKey hk))
  | ground r => exact .inr (.inr (r.extending_ground x.store x.work).manager)
  | groundResults r results =>
    exact .inr (.inr (r.extending_groundResults x.store results x.work).manager)
  | groundAll b => exact .inr (.inr (Rule.extending_groundAll x.store b.rules x.work).manager)
  | insert k value p =>
    rw [perform, insert]
    cases x.store.insert k value p <;> exact .inr (.inr (.refl _ _))
  | commit atoms p =>
    rw [perform]
    cases x.store.commit atoms p <;> exact .inr (.inr (.refl _ _))
  | move p source =>
    rw [perform, moveToWrite]
    cases x.store.moveToWrite p source <;> exact .inr (.inr (.refl _ _))

/-- Unstaging writes to the store. -/
theorem becomes_unstage (x : Session) (ps : List Predicate) :
    x.store.Becomes (x.unstage ps).2.store := by
  induction ps generalizing x with
  | nil => exact .refl _
  | cons p ps ih =>
    obtain ⟨n, t, hmove, -, -, hunstage⟩ := x.exists_unstage_cons p ps
    rw [hunstage]
    exact (Store.becomes_of_moveToWrite hmove).trans (ih ⟨t, _⟩)

theorem becomes_activateAtoms {b : RuleBase} {atoms : List Handle}
    {result : Except ActivationFault Unit} (h : x.activateAtoms b atoms = (result, y)) :
    x.store.Becomes y.store := by
  rcases activateAtoms_cases h with ⟨-, -, -, rfl⟩ | ⟨staged, ground, w, hstage, -, hend⟩
  · exact .refl _
  · obtain ⟨store, hcommit, rfl⟩ := stage_eq_ok hstage
    have hstaged := Store.becomes_of_commit hcommit
    rcases hend with ⟨-, -, -, rfl⟩ | ⟨n, -, hunstage⟩
    · exact hstaged
    · have hunstaged := becomes_unstage ⟨store, w⟩ (standardPredicates atoms)
      rw [hunstage] at hunstaged
      exact hstaged.trans hunstaged

/-- What is true of a manager and is kept when instances are taken over, when keys are resolved and
when atoms are promoted, is kept by activating atoms, wherever it ends. -/
theorem manager_activateAtoms {m₀ : Manager} {hs : List Handle} {P : Manager → Prop}
    (hx : x.work.Keeps m₀ hs) {b : RuleBase} {atoms : List Handle}
    (hatoms : ∀ a ∈ atoms, x.manager.Gives a) (h : P x.manager)
    (hadopt : P (x.manager.adopt atoms (.unobserved x.store.layout.lazy)))
    (hextend : ∀ {s m m'}, x.store.Becomes s → m.Sound → m'.Sound → m.Extends s m' → P m → P m')
    (hpromote : ∀ {ps source goal m m'}, m'.Sound → m.Promotes ps source goal m' → P m → P m')
    {result : Except ActivationFault Unit} (hrun : x.activateAtoms b atoms = (result, y)) :
    P y.manager := by
  have hy := (keeps_activateAtoms hx hatoms hrun).sound
  rcases activateAtoms_cases hrun with ⟨-, -, -, rfl⟩ | ⟨staged, ground, w, hstage, hground, hend⟩
  · exact h
  · have hstaged := keeps_stage hx hatoms hstage
    have hkeeps := b.keeps_groundStaged hstaged hground
    obtain ⟨store, hcommit, rfl⟩ := stage_eq_ok hstage
    have hgrounded : P w.manager :=
      hextend (Store.becomes_of_commit hcommit) hstaged.sound hkeeps.sound
        (RuleBase.extends_groundStaged hground).manager hadopt
    rcases hend with ⟨-, -, -, rfl⟩ | ⟨n, -, hunstage⟩
    · exact hgrounded
    · obtain ⟨-, -, -, hpromotes⟩ := promotes_unstage ⟨store, w⟩ (standardPredicates atoms)
      rw [hunstage] at hpromotes
      exact hpromote hy hpromotes hgrounded

/-- However a session changes, its store is written to. -/
theorem Changes.becomes {keys : List GroundKey} (h : x.Changes keys y) :
    x.store.Becomes y.store := by
  cases h with
  | extend h => exact .refl _
  | setValue a value => exact .refl _
  | activate h =>
    rcases activate_cases h with ⟨-, rfl⟩ | ⟨_, _, -, hactivate, -⟩
    · exact .refl _
    · exact becomes_activateAtoms hactivate
  | commit h => exact Store.becomes_of_commit h
  | move h => exact Store.becomes_of_moveToWrite h

theorem becomes_after (x : Session) (actions : List Action) :
    x.store.Becomes (x.after actions).store := by
  induction actions generalizing x with
  | nil => exact .refl _
  | cons a actions ih => exact (x.changes_perform a).becomes.trans (ih (x.perform a))

end Session

end RuleGrounding
