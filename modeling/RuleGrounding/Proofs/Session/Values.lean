import RuleGrounding.Proofs.Activation.Outcomes
import RuleGrounding.Proofs.Session.Changes
import RuleGrounding.Proofs.SoftValue

/-!
# The values in a session

A value enters a session as a row, which the store checks, as the value of an instance, which is
brought between zero and one, as the value of a relation, or as the default value of the store,
which is brought there too. So all values lie between zero and one, except that what is not a
number stays so: over a store with such a default value a lazy atom has no number until somebody
gives it one. Until then it reaches no threshold, and it is not stored.
-/

namespace RuleGrounding

open SoftValue

/-- The value of a relation lies between zero and one. -/
theorem Builtin.inUnit_value (builtin : Builtin) (args : List Constant) :
    inUnit (builtin.value args) = true := by
  rw [Builtin.value]
  split <;> decide

/-- What a sound store knows of an atom has a value between zero and one. -/
theorem Store.Sound.inUnit_of_look {s : Store} (hs : s.Sound) {k : GroundKey} {atom : GroundAtom}
    (h : s.look k = .present atom) : SoftValue.inUnit atom.value = true := by
  rw [look] at h
  split at h
  · obtain rfl := StoreView.present.inj h
    exact Builtin.inUnit_value ..
  · split at h
    · rename_i stored hstored
      obtain rfl := StoreView.present.inj h
      rw [hs.get?_eq] at hstored
      exact hs.inUnit k stored hstored
    · cases h

/-- The value lies between zero and one, or neither it nor the default value is a number. -/
def SoftValue.IsSoft (default value : Float) : Prop :=
  inUnit value = true ∨ default.isNaN = true ∧ value.isNaN = true

/-- Such is the default value of a store, which has been brought between zero and one. -/
theorem SoftValue.isSoft_clamp (default : Float) : IsSoft default (clamp default) := by
  cases h : default.isNaN with
  | false => exact .inl (inUnit_clamp h)
  | true =>
    rw [clamp_of_isNaN h]
    exact .inr ⟨h, h⟩

namespace Manager

variable {default : Float} {s : Store} {m m' : Manager}

/-- The values of known atoms lie between zero and one, and so do those of lazy atoms, unless they
are no numbers, like the default value. -/
structure HoldsSoftValues (default : Float) (m : Manager) : Prop where
  /-- The values of known atoms lie between zero and one. -/
  known : ∀ k h, m.known.find? k = some h → inUnit (m.pool.value h) = true
  /-- The value of a lazy atom may also be no number. -/
  lazy : ∀ k h, m.lazy.find? k = some h → IsSoft default (m.pool.value h)

theorem holdsSoftValues_fresh (default : Float) (policy : Policy) :
    (fresh policy).HoldsSoftValues default :=
  ⟨fun _ _ h => (by cases h), fun _ _ h => (by cases h)⟩

/-- New known atoms have the values of rows or of relations, new lazy ones the default value. -/
theorem HoldsSoftValues.extend (h : m.HoldsSoftValues default) (hm : m.Sound) (hs : s.Sound)
    (hdefault : s.defaultValue = clamp default) (hextends : m.Extends s m') :
    m'.HoldsSoftValues default where
  known k a ha := by
    rcases hextends.learnt k a ha with hold | ⟨-, -, hlook⟩
    · rw [hextends.value (hm.allocated a (hm.gives_of_known hold))]
      exact h.known k a hold
    · have hunit := hs.inUnit_of_look hlook
      exact hunit
  lazy k a ha := by
    rcases hextends.deferred k a ha with hold | ⟨-, -, hlook⟩
    · rw [hextends.value (hm.allocated a (hm.gives_of_lazy hold))]
      exact h.lazy k a hold
    · have hvalue : m'.pool.value a = s.defaultValue :=
        congrArg GroundAtom.value (Store.eq_of_look_eq_absent hlook).2
      rw [hvalue, hdefault]
      exact isSoft_clamp default

/-- A number that is given to an instance is brought between zero and one. -/
theorem HoldsSoftValues.setValue (h : m.HoldsSoftValues default) (a : Handle) {value : Float}
    (hvalue : value.isNaN = false) : (m.setValue a value).HoldsSoftValues default where
  known k b hb := by
    rcases m.pool.value_setValue_cases a value b with hset | hkept
    · exact hset ▸ inUnit_clamp hvalue
    · exact hkept ▸ h.known k b hb
  lazy k b hb := by
    rcases m.pool.value_setValue_cases a value b with hset | hkept
    · exact .inl (hset ▸ inUnit_clamp hvalue)
    · exact hkept ▸ h.lazy k b hb

/-- Only numbers may be taken over from the lazy atoms. -/
theorem HoldsSoftValues.adopt (h : m.HoldsSoftValues default) (hm : m.Sound) {atoms : List Handle}
    (hatoms : ∀ a ∈ atoms, m.lazy.find? a.key = some a)
    (hnumbers : ∀ a ∈ atoms, (m.pool.value a).isNaN = false) (state : AtomState) :
    (m.adopt atoms state).HoldsSoftValues default := by
  have hadopts := adopts_adopt hm (fun a ha => hm.gives_of_lazy (hatoms a ha)) state
  constructor
  · intro k a ha
    rw [hadopts.values]
    rcases (hadopts.find?_known_iff hm hatoms).mp ha with hold | ⟨hmem, -⟩
    · exact h.known k a hold
    · rcases h.lazy a.key a (hatoms a hmem) with hunit | ⟨-, hnan⟩
      · exact hunit
      · rw [hnumbers a hmem] at hnan
        cases hnan
  · intro k a ha
    rw [hadopts.values]
    exact h.lazy k a ((hadopts.find?_lazy_iff hm hatoms).mp ha).1

theorem HoldsSoftValues.promotes (h : m.HoldsSoftValues default) {predicates : List Predicate}
    {source goal : PartitionId} (hpromotes : m.Promotes predicates source goal m') :
    m'.HoldsSoftValues default where
  known k a ha := by
    rw [hpromotes.values]
    exact h.known k a (hpromotes.known ▸ ha)
  lazy k a ha := by
    rw [hpromotes.values]
    exact h.lazy k a (hpromotes.lazy ▸ ha)

/-- An instance of the manager has a value between zero and one, unless it is lazy and has no
number. -/
theorem HoldsSoftValues.of_gives (h : m.HoldsSoftValues default) {a : Handle} (ha : m.Gives a) :
    inUnit (m.pool.value a) = true ∨ m.lazy.find? a.key = some a ∧ default.isNaN = true ∧
      (m.pool.value a).isNaN = true := by
  rcases Option.or_eq_some_iff.mp ha with hlazy | ⟨-, hknown⟩
  · exact (h.lazy a.key a hlazy).imp_right fun hnan => ⟨hlazy, hnan⟩
  · exact .inl (h.known a.key a hknown)

end Manager

namespace Session

variable {x y : Session} {m₀ : Manager} {hs : List Handle} {default : Float}

/-- What is activated has reached the threshold, and so it is a number. -/
theorem holdsSoftValues_activate (hx : x.work.Keeps m₀ hs) (hstore : x.store.Sound)
    (hdefault : x.store.defaultValue = clamp default) (h : x.manager.HoldsSoftValues default)
    {b : RuleBase} {result : Except ActivationFault Nat} (hrun : x.activate b = (result, y)) :
    y.manager.HoldsSoftValues default := by
  rcases activate_cases hrun with ⟨-, rfl⟩ | ⟨threshold, activated, -, hactivate, -⟩
  · exact h
  · have heligible : ∀ a ∈ x.eligible threshold,
        x.manager.lazy.find? a.key = some a ∧ threshold ≤ x.pool.value a :=
      fun a ha => (mem_eligible_iff hx.sound).mp ha
    have hadopted := h.adopt hx.sound (fun a ha => (heligible a ha).1)
      (fun a ha => isNaN_eq_false_of_le (heligible a ha).2) (.unobserved x.store.layout.lazy)
    refine manager_activateAtoms hx (fun a ha => gives_of_mem_eligible hx.sound ha) h hadopted
      ?_ ?_ hactivate
    · intro s m m' hbecomes hsound _ hextends hm
      exact hm.extend hsound (hbecomes.sound hstore) (hbecomes.defaultValue.trans hdefault) hextends
    · exact fun _ hpromotes hm => hm.promotes hpromotes

/-- An action that gives only numbers to instances keeps their values between zero and one. -/
theorem holdsSoftValues_perform (hx : x.work.Keeps m₀ hs) (hstore : x.store.Sound)
    (hdefault : x.store.defaultValue = clamp default) (h : x.manager.HoldsSoftValues default)
    {a : Action} (ha : ∀ b value, a = .setValue b value → value.isNaN = false) :
    (x.perform a).manager.HoldsSoftValues default := by
  rcases x.manager_perform_cases a with ⟨b, value, rfl⟩ | ⟨b, rfl⟩ | hextends
  · exact h.setValue b (ha b value rfl)
  · exact holdsSoftValues_activate hx hstore hdefault h (Prod.ext rfl rfl)
  · exact h.extend hx.sound hstore hdefault hextends

/-- So do several actions. -/
theorem holdsSoftValues_after (hx : x.work.Keeps m₀ hs) (hstore : x.store.Sound)
    (hdefault : x.store.defaultValue = clamp default) (h : x.manager.HoldsSoftValues default)
    {actions : List Action} (hactions : ∀ b value, .setValue b value ∈ actions →
      value.isNaN = false) : (x.after actions).manager.HoldsSoftValues default := by
  induction actions generalizing x hs with
  | nil => exact h
  | cons a actions ih =>
    have hbecomes := (x.changes_perform a).becomes
    refine ih (keeps_perform hx a) (hbecomes.sound hstore) (hbecomes.defaultValue.trans hdefault)
      (holdsSoftValues_perform hx hstore hdefault h fun b value ha => ?_) fun b value hmem => ?_
    · exact hactions b value (ha ▸ List.mem_cons_self)
    · exact hactions b value (List.mem_cons_of_mem a hmem)

/-- Whatever happens in a session in which only numbers are given to instances, rows and known
atoms have values between zero and one. A lazy atom and any instance that has come out of the
session has such a value, too, or else it is still lazy, its value is no number, and neither is the
default value that was asked for. So if that is a number, all values lie between zero and one. -/
theorem values_are_soft_but_for_undefined_defaults {layout : PartitionLayout} {default : Float}
    {policy : Policy} {actions : List Action}
    (hx : x = (start (.empty layout default) policy).after actions)
    (hactions : ∀ h value, .setValue h value ∈ actions → value.isNaN = false) :
    (∀ k stored, x.store.rows.find? k = some stored → inUnit stored.value = true) ∧
    (∀ k h, x.manager.known.find? k = some h → inUnit (x.pool.value h) = true) ∧
    (∀ h, h ∈ x.manager.lazy.values ∨ h ∈ (start (.empty layout default) policy).seen actions →
      inUnit (x.pool.value h) = true ∨ x.manager.lazy.find? h.key = some h ∧
        default.isNaN = true ∧ (x.pool.value h).isNaN = true) ∧
    (default.isNaN = false →
      ∀ h, h ∈ x.manager.lazy.values ∨ h ∈ (start (.empty layout default) policy).seen actions →
        inUnit (x.pool.value h) = true) := by
  have hstart := keeps_start (.empty layout default) policy
  have hempty := Store.sound_empty layout default
  have hkeeps := keeps_after hstart actions
  have hstore := (becomes_after (start (.empty layout default) policy) actions).sound hempty
  have hholds := holdsSoftValues_after hstart hempty rfl
    (Manager.holdsSoftValues_fresh default policy) hactions
  rw [← hx] at hkeeps hstore hholds
  have hgives : ∀ h, h ∈ x.manager.lazy.values ∨
      h ∈ (start (.empty layout default) policy).seen actions → x.manager.Gives h := by
    rintro h (hlazy | hseen)
    · exact hkeeps.sound.gives_of_lazy (hkeeps.sound.mem_lazy_values_iff.mp hlazy)
    · exact hx ▸ gives_of_mem_seen hseen
  refine ⟨hstore.inUnit, hholds.known, fun h hh => hholds.of_gives (hgives h hh), ?_⟩
  intro hnumber h hh
  refine (hholds.of_gives (hgives h hh)).resolve_right fun ⟨_, hnan, _⟩ => ?_
  rw [hnumber] at hnan
  cases hnan

/-- A session over a store whose default value is no number, in which somebody asks whether Ann is
infected. -/
def undefinedInfection : Session :=
  (start (.empty ⟨[⟨0⟩], ⟨1⟩, ⟨2⟩⟩ (0.0 / 0.0)) (.deferring 0.5)).after
    [.resolve annInfected.predicate annInfected.args]

/-- The infection of Ann is lazy and has no number, although nobody has given it any value. -/
theorem infection_has_no_number :
    (0.0 / 0.0 : Float).isNaN = true ∧
      undefinedInfection.manager.lazy.find? annInfected = some ⟨annInfected, 0⟩ ∧
      inUnit (undefinedInfection.pool.value ⟨annInfected, 0⟩) = false ∧
      (undefinedInfection.pool.value ⟨annInfected, 0⟩).isNaN = true := by
  obtain ⟨-, -, hvalues, -⟩ := values_are_soft_but_for_undefined_defaults
    (x := undefinedInfection) rfl (by simp)
  have hlazy : undefinedInfection.manager.lazy.values = [⟨annInfected, 0⟩] := rfl
  have hout : inUnit (undefinedInfection.pool.value ⟨annInfected, 0⟩) = false :=
    inUnit_of_isNaN (by decide)
  obtain hin | ⟨hfind, hdefault, hnan⟩ := hvalues ⟨annInfected, 0⟩
    (.inl (hlazy ▸ List.mem_cons_self))
  · rw [hout] at hin
    cases hin
  · exact ⟨hdefault, hfind, hout, hnan⟩

end Session

end RuleGrounding
