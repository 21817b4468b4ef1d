import RuleGrounding.Proofs.Manager.Extensions

/-!
# Managers that compute

The value of a functional atom is the computed one as long as nobody assigns it another; then it
is what it has been assigned last. Under a deferring manager, moreover, every key is resolved.
-/

namespace RuleGrounding

namespace AtomPool

/-- Setting the value of one instance leaves those of the others. -/
theorem value_setValue_of_ne {pool : AtomPool} {h h' : Handle} (value : Float)
    (hne : h.serial ≠ h'.serial) : (pool.setValue h value).value h' = pool.value h' := by
  rw [AtomPool.value, AtomPool.value, setValue, cell_modify_of_ne _ hne]

/-- An instance with a cell has the value that it gets, brought between zero and one. -/
theorem value_setValue_of_eq {pool : AtomPool} {h h' : Handle} (value : Float)
    (he : h.serial = h'.serial) (hlt : h'.serial < pool.cells.size) :
    (pool.setValue h value).value h' = SoftValue.clamp value := by
  simp [AtomPool.value, cell, setValue, modify, he, hlt, Array.getElem_modify]

/-- Setting the value of an instance brings the value between zero and one; an instance of another
cell keeps what it has. -/
theorem value_setValue_cases (pool : AtomPool) (h : Handle) (value : Float) (a : Handle) :
    (pool.setValue h value).value a = SoftValue.clamp value ∨
      (pool.setValue h value).value a = pool.value a := by
  by_cases hserial : h.serial = a.serial
  · simp only [AtomPool.value, cell, setValue, modify, Array.getElem?_modify, if_pos hserial]
    cases pool.cells[a.serial]? with
    | none => exact .inr rfl
    | some c => exact .inl rfl
  · exact .inr (value_setValue_of_ne value hserial)

end AtomPool

/-- The value of a functional atom: the one that it has been assigned, brought between zero and one,
or else the computed one. -/
def Builtin.presentValue (builtin : Builtin) (args : List Constant) (assigned : Option Float) :
    Float :=
  (assigned.map SoftValue.clamp).getD (builtin.value args)

namespace Manager

/-- Functional atoms have the values that they have been assigned, and the computed ones where they
have been assigned none. -/
structure Reflects (assigned : GroundKey → Option Float) (m : Manager) : Prop where
  /-- The instances are in order. -/
  sound : m.Sound
  /-- Functional atoms have the assigned values, or else the computed ones. -/
  value : ∀ h builtin, m.Gives h → h.key.predicate.kind = .functional builtin →
    m.pool.value h = builtin.presentValue h.key.args (assigned h.key)
  /-- What has no instance has been assigned nothing. -/
  unassigned : ∀ k, m.instance? k = none → assigned k = none

/-- Functional atoms have their computed values. -/
structure Evaluates (m : Manager) : Prop where
  /-- The instances are in order. -/
  sound : m.Sound
  /-- Functional atoms have their computed values. -/
  computed : ∀ h builtin, m.Gives h → h.key.predicate.kind = .functional builtin →
    m.pool.value h = builtin.value h.key.args

/-- Every key is resolved, and functional atoms have their computed values. -/
structure Computes (m : Manager) : Prop where
  /-- The instances are in order. -/
  sound : m.Sound
  /-- Atoms that are not stored are deferred. -/
  deferring : ∃ threshold, m.policy = .deferring threshold
  /-- Functional atoms have their computed values. -/
  computed : ∀ h builtin, m.Gives h → h.key.predicate.kind = .functional builtin →
    m.pool.value h = builtin.value h.key.args

variable {m m' : Manager} {assigned : GroundKey → Option Float}

section Reflecting

/-- A manager that has resolved nothing reflects that nothing is assigned, whatever the pool. -/
theorem reflects_renew (m : Manager) (policy : Policy) :
    (m.renew policy).Reflects fun _ => none where
  sound := sound_renew m policy
  value _ _ h := by cases h
  unassigned _ _ := rfl

/-- A change that keeps instances and values keeps what is reflected. -/
theorem Reflects.of_value_eq (h : m.Reflects assigned) (hsound : m'.Sound)
    (hi : ∀ k, m'.instance? k = m.instance? k)
    (hvalue : ∀ a, m'.pool.value a = m.pool.value a) : m'.Reflects assigned where
  sound := hsound
  value a builtin ha hk := by rw [hvalue, h.value a builtin ((gives_congr hi a).mp ha) hk]
  unassigned k hk := h.unassigned k ((hi k).symm.trans hk)

/-- Functional atoms that are new are computed. -/
theorem Reflects.extend {s : Store} (h : m.Reflects assigned) (hextends : m.Extends s m')
    (hsound : m'.Sound) : m'.Reflects assigned where
  sound := hsound
  value a builtin ha hk := by
    have hold : m.instance? a.key = some a →
        m'.pool.value a = builtin.presentValue a.key.args (assigned a.key) := by
      intro hgives
      rw [hextends.value (h.sound.allocated a hgives)]
      exact h.value a builtin hgives hk
    rcases Option.or_eq_some_iff.mp ha with hlazy | ⟨-, hknown⟩
    · rcases hextends.deferred a.key a hlazy with hgives | ⟨-, -, hlook⟩
      · exact hold (instance?_of_lazy hgives)
      · have hstandard := Store.isStandard_of_look_eq_absent hlook
        rw [Predicate.isStandard, hk] at hstandard
        cases hstandard
    · rcases hextends.learnt a.key a hknown with hgives | ⟨hnone, -, hlook⟩
      · exact hold (h.sound.instance?_of_known hgives)
      · rw [Store.look, hk] at hlook
        have hvalue : builtin.value a.key.args = m'.pool.value a :=
          congrArg GroundAtom.value (StoreView.present.inj hlook)
        rw [h.unassigned a.key hnone, ← hvalue]
        rfl
  unassigned k hk := h.unassigned k (hextends.instance?_eq_none hk)

/-- What is assigned to the instance of a key when some instance gets a value: the value if it is
the same instance. -/
def assigns (m : Manager) (a : Handle) (value : Float) (k : GroundKey) : Option Float :=
  (m.instance? k).bind fun h => if h.serial = a.serial then some value else none

/-- The value that an instance gets is reflected from then on. -/
theorem Reflects.setValue (h : m.Reflects assigned) (a : Handle) (value : Float) :
    (m.setValue a value).Reflects fun k => (m.assigns a value k).or (assigned k) where
  sound := sound_setValue h.sound a value
  value b builtin hb hk := by
    have hgives : m.instance? b.key = some b := hb
    rw [assigns, hgives, Option.bind_some]
    split
    · rename_i hserial
      exact AtomPool.value_setValue_of_eq value hserial.symm (h.sound.allocated b hgives)
    · rename_i hne
      exact (AtomPool.value_setValue_of_ne value (Ne.symm hne)).trans (h.value b builtin hgives hk)
  unassigned k hk := by
    have hnone : m.instance? k = none := hk
    rw [assigns, hnone]
    exact h.unassigned k hnone

theorem Reflects.adopt (h : m.Reflects assigned) {atoms : List Handle}
    (hatoms : ∀ a ∈ atoms, m.Gives a) (state : AtomState) :
    (m.adopt atoms state).Reflects assigned :=
  h.of_value_eq (adopt_sound_grows h.sound hatoms state).1 (instance?_adopt h.sound hatoms state)
    (adopts_adopt h.sound hatoms state).values

theorem Reflects.promote (h : m.Reflects assigned) (p : Predicate) (source goal : PartitionId) :
    (m.promote p source goal).Reflects assigned :=
  h.of_value_eq (sound_promote h.sound ..) (fun _ => rfl) (value_foldl_promoteOne _ _ p source goal)

/-- A manager evaluates if it reflects that nothing is assigned. -/
theorem evaluates_iff : m.Evaluates ↔ m.Reflects fun _ => none :=
  ⟨fun h => ⟨h.sound, h.computed, fun _ _ => rfl⟩, fun h => ⟨h.sound, h.value⟩⟩

end Reflecting

theorem Computes.evaluates (h : m.Computes) : m.Evaluates := ⟨h.sound, h.computed⟩

/-- Under a deferring policy a manager that evaluates computes. -/
theorem Evaluates.computes (h : m.Evaluates)
    (hpolicy : ∃ threshold, m.policy = .deferring threshold) : m.Computes :=
  ⟨h.sound, hpolicy, h.computed⟩

/-- A manager that has resolved nothing evaluates, whatever the pool. -/
theorem evaluates_renew (m : Manager) (policy : Policy) : (m.renew policy).Evaluates :=
  evaluates_iff.mpr (reflects_renew m policy)

theorem computes_fresh (threshold : Float) : (fresh (.deferring threshold)).Computes :=
  (evaluates_renew (fresh (.deferring threshold)) _).computes ⟨threshold, rfl⟩

/-- Setting the value of an instance leaves the computed values if it is none of a functional
atom. -/
theorem Evaluates.setValue (h : m.Evaluates) {a : Handle}
    (hspares : ∀ b, m.Gives b → a.serial = b.serial → b.key.predicate.isStandard = true)
    (value : Float) : (m.setValue a value).Evaluates where
  sound := sound_setValue h.sound a value
  computed b builtin hb hk := by
    have hne : a.serial ≠ b.serial := by
      intro he
      have hstandard := hspares b hb he
      rw [Predicate.isStandard, hk] at hstandard
      cases hstandard
    exact (AtomPool.value_setValue_of_ne value hne).trans (h.computed b builtin hb hk)

/-- Setting the value of a standard atom leaves the computed values. -/
theorem Computes.setValue (h : m.Computes) {a : Handle} (ha : m.Gives a)
    (hstandard : a.key.predicate.isStandard = true) (value : Float) :
    (m.setValue a value).Computes := by
  refine (h.evaluates.setValue (fun b hb he => ?_) value).computes h.deferring
  rwa [← h.sound.separate a b ha hb he]

theorem Evaluates.adopt (h : m.Evaluates) {atoms : List Handle} (hatoms : ∀ a ∈ atoms, m.Gives a)
    (state : AtomState) : (m.adopt atoms state).Evaluates :=
  evaluates_iff.mpr ((evaluates_iff.mp h).adopt hatoms state)

theorem Computes.adopt (h : m.Computes) {atoms : List Handle} (hatoms : ∀ a ∈ atoms, m.Gives a)
    (state : AtomState) : (m.adopt atoms state).Computes := by
  refine (h.evaluates.adopt hatoms state).computes ?_
  rw [(adopt_sound_grows h.sound hatoms state).2.policy]
  exact h.deferring

theorem Evaluates.promote (h : m.Evaluates) (p : Predicate) (source goal : PartitionId) :
    (m.promote p source goal).Evaluates :=
  evaluates_iff.mpr ((evaluates_iff.mp h).promote p source goal)

theorem Computes.promote (h : m.Computes) (p : Predicate) (source goal : PartitionId) :
    (m.promote p source goal).Computes :=
  (h.evaluates.promote p source goal).computes h.deferring

/-- Resolving a key leaves the computed values, and a functional atom gets its own. -/
theorem Evaluates.resolveKey (h : m.Evaluates) {s : Store} {k : GroundKey} {a : Handle}
    (hr : m.resolveKey s k = .ok (a, m')) : m'.Evaluates :=
  evaluates_iff.mpr ((evaluates_iff.mp h).extend (extends_of_resolveKey hr)
    (resolveKey_sound_grows h.sound hr).1)

/-- Under a manager that computes, every key is resolved to an instance of it, and the manager
goes on computing. -/
theorem Computes.resolveKey (h : m.Computes) (s : Store) (k : GroundKey) :
    ∃ a m', m.resolveKey s k = .ok (a, m') ∧ m'.Computes ∧ m'.Gives a ∧ a.key = k := by
  obtain ⟨threshold, hpolicy⟩ := h.deferring
  obtain ⟨a, m', hr⟩ := exists_resolveKey (s := s) (k := k) (not_refuses_of_deferring hpolicy)
  obtain ⟨-, hgrows, hkey, hgives⟩ := resolveKey_sound_grows h.sound hr
  have hevaluates := h.evaluates.resolveKey hr
  exact ⟨a, m', hr, hevaluates.computes ⟨threshold, hgrows.policy.trans hpolicy⟩, hgives, hkey⟩

/-- The managers under which no functional atom is ever given a value. They come from managers that
have resolved nothing by what is done to a manager: keys are resolved over whatever the store is at
the time, other instances are given values, and instances are taken over and moved on. -/
inductive Untampered : Manager → Prop where
  /-- Nothing is resolved yet. -/
  | renew (m : Manager) (policy : Policy) : Untampered (m.renew policy)
  /-- A key is resolved. -/
  | resolve {m m' : Manager} {s : Store} {k : GroundKey} {a : Handle} (h : Untampered m)
    (hr : m.resolveKey s k = .ok (a, m')) : Untampered m'
  /-- An instance that is none of a functional atom of the manager is given a value. -/
  | setValue {m : Manager} {a : Handle} (value : Float) (h : Untampered m)
    (hspares : ∀ b, m.Gives b → a.serial = b.serial → b.key.predicate.isStandard = true) :
    Untampered (m.setValue a value)
  /-- Instances are taken over into the resolved ones. -/
  | adopt {m : Manager} {atoms : List Handle} (state : AtomState) (h : Untampered m)
    (hatoms : ∀ a ∈ atoms, m.Gives a) : Untampered (m.adopt atoms state)
  /-- Instances are said to live in another partition. -/
  | promote {m : Manager} (p : Predicate) (source goal : PartitionId) (h : Untampered m) :
    Untampered (m.promote p source goal)

/-- If no functional atom is given a value, all have their computed ones. -/
theorem Untampered.evaluates (h : m.Untampered) : m.Evaluates := by
  induction h with
  | renew m policy => exact evaluates_renew m policy
  | resolve _ hr ih => exact ih.resolveKey hr
  | setValue value _ hspares ih => exact ih.setValue hspares value
  | adopt state _ hatoms ih => exact ih.adopt hatoms state
  | promote p source goal _ ih => exact ih.promote p source goal

end Manager

end RuleGrounding
