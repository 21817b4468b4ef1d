import RuleGrounding.Proofs.Activation.Outcomes
import RuleGrounding.Proofs.Session.Changes
import RuleGrounding.Proofs.SoftValue

/-!
# Lazy atoms that others store

An atom is deferred because it is not stored, but nothing keeps others from storing it later,
and then it is both lazy and stored: the manager does not look at the store again. If it does not
lie where lazy atoms are staged, the store refuses to activate it, and with it all other
eligible atoms. There is no other way for a lazy atom to be stored, and no other reason for the
store to refuse eligible atoms.
-/

namespace RuleGrounding

namespace Manager

variable {s : Store} {m m' : Manager} {k : GroundKey}

/-- Lazy atoms may be stored once their values have reached some number: they are of standard
predicates, and their values have been brought between zero and one. -/
structure DefersStorable (m : Manager) : Prop where
  /-- Lazy atoms are of standard predicates. -/
  standard : ∀ k h, m.lazy.find? k = some h → k.predicate.isStandard = true
  /-- Their values have been brought between zero and one. -/
  clamped : ∀ k h, m.lazy.find? k = some h → ∃ x, m.pool.value h = SoftValue.clamp x

theorem defersStorable_fresh (policy : Policy) : (fresh policy).DefersStorable :=
  ⟨fun _ _ h => (by cases h), fun _ _ h => (by cases h)⟩

/-- Resolving defers atoms with the value that the store has for them. -/
theorem DefersStorable.extend (h : m.DefersStorable) (hm : m.Sound) (hextends : m.Extends s m')
    (hdefault : ∃ x, s.defaultValue = SoftValue.clamp x) : m'.DefersStorable where
  standard k a ha := by
    rcases hextends.deferred k a ha with hold | ⟨-, -, hlook⟩
    · exact h.standard k a hold
    · exact Store.isStandard_of_look_eq_absent hlook
  clamped k a ha := by
    rcases hextends.deferred k a ha with hold | ⟨-, -, hlook⟩
    · rw [hextends.value (hm.allocated a (hm.gives_of_lazy hold))]
      exact h.clamped k a hold
    · have hvalue : m'.pool.value a = s.defaultValue :=
        congrArg GroundAtom.value (Store.eq_of_look_eq_absent hlook).2
      rwa [hvalue]

theorem DefersStorable.setValue (h : m.DefersStorable) (a : Handle) (value : Float) :
    (m.setValue a value).DefersStorable where
  standard := h.standard
  clamped k b hb := by
    rcases m.pool.value_setValue_cases a value b with hset | hkept
    · exact ⟨value, hset⟩
    · obtain ⟨x, hx⟩ := h.clamped k b hb
      exact ⟨x, hkept.trans hx⟩

/-- No atom is deferred when lazy atoms are taken over or promoted. -/
theorem DefersStorable.of_value_eq (h : m.DefersStorable)
    (hlazy : ∀ k a, m'.lazy.find? k = some a → m.lazy.find? k = some a)
    (hvalue : ∀ a, m'.pool.value a = m.pool.value a) : m'.DefersStorable where
  standard k a ha := h.standard k a (hlazy k a ha)
  clamped k a ha := by
    rw [hvalue]
    exact h.clamped k a (hlazy k a ha)

/-- What is resolved over a store and deferred is not stored. -/
theorem Extends.mem_lazy_of_stores (h : m.Extends s m') (hk : k ∈ m'.lazy.keys)
    (hstored : s.Stores k) : k ∈ m.lazy.keys := by
  obtain ⟨a, ha⟩ := FiniteMap.mem_keys_iff.mp hk
  obtain ⟨stored, hstored⟩ := hstored
  rcases h.deferred k a ha with hold | ⟨-, -, hlook⟩
  · exact FiniteMap.mem_keys_iff.mpr ⟨a, hold⟩
  · rw [(Store.eq_of_look_eq_absent hlook).1] at hstored
    cases hstored

end Manager

namespace Session

variable {x y : Session} {m₀ : Manager} {hs : List Handle} {threshold : Float} {k : GroundKey}

section Deferring

/-- Activation defers only such atoms as may be stored. -/
theorem defersStorable_activate (hx : x.work.Keeps m₀ hs)
    (hdefault : ∃ v, x.store.defaultValue = SoftValue.clamp v) (h : x.manager.DefersStorable)
    {b : RuleBase} {result : Except ActivationFault Nat} (hrun : x.activate b = (result, y)) :
    y.manager.DefersStorable := by
  rcases activate_cases hrun with ⟨-, rfl⟩ | ⟨threshold, activated, -, hactivate, -⟩
  · exact h
  · have hlazy : ∀ a ∈ x.eligible threshold, x.manager.lazy.find? a.key = some a :=
      fun a ha => ((mem_eligible_iff hx.sound).mp ha).1
    have hgives : ∀ a ∈ x.eligible threshold, x.manager.Gives a :=
      fun a ha => hx.sound.gives_of_lazy (hlazy a ha)
    have hadopts := Manager.adopts_adopt hx.sound hgives (.unobserved x.store.layout.lazy)
    refine manager_activateAtoms hx hgives h ?_ ?_ ?_ hactivate
    · exact h.of_value_eq (fun k a ha => ((hadopts.find?_lazy_iff hx.sound hlazy).mp ha).1)
        hadopts.values
    · intro s m m' hbecomes hsound _ hextends hm
      refine hm.extend hsound hextends ?_
      rwa [hbecomes.defaultValue]
    · exact fun _ hpromotes hm =>
        hm.of_value_eq (fun k a ha => hpromotes.lazy ▸ ha) hpromotes.values

/-- However a session changes, only such atoms are deferred as may be stored. -/
theorem Changes.defersStorable {keys : List GroundKey} (h : x.Changes keys y)
    (hx : x.work.Keeps m₀ hs) (hdefault : ∃ v, x.store.defaultValue = SoftValue.clamp v)
    (hdefers : x.manager.DefersStorable) : y.manager.DefersStorable := by
  cases h with
  | extend h => exact hdefers.extend hx.sound h hdefault
  | setValue a value => exact hdefers.setValue a value
  | activate h => exact defersStorable_activate hx hdefault hdefers h
  | commit h => exact hdefers
  | move h => exact hdefers

theorem defersStorable_after (hx : x.work.Keeps m₀ hs)
    (hdefault : ∃ v, x.store.defaultValue = SoftValue.clamp v) (h : x.manager.DefersStorable)
    (actions : List Action) : (x.after actions).manager.DefersStorable := by
  induction actions generalizing x hs with
  | nil => exact h
  | cons a actions ih =>
    have hchanges := x.changes_perform a
    refine ih (keeps_perform hx a) ?_ (hchanges.defersStorable hx hdefault h)
    rwa [hchanges.becomes.defaultValue]

end Deferring

section Forestalling

/-- The atoms that several actions store directly while they are lazy, the last ones first. -/
def forestalledBy (x : Session) : List Action → List GroundKey
  | [] => []
  | a :: actions => (x.perform a).forestalledBy actions ++
      (x.stored a).filter fun k => x.manager.lazy.contains k

/-- An activation stores none of the atoms that are lazy afterwards. -/
theorem Activates.stores_iff {atoms : List Handle} {p : PartitionId} (h : x.Activates atoms p y)
    (hk : k ∈ y.manager.lazy.keys) :
    y.store.Stores k ↔ k ∈ x.manager.lazy.keys ∧ x.store.Stores k := by
  obtain ⟨a, ha⟩ := FiniteMap.mem_keys_iff.mp hk
  have hnot : k ∉ atoms.map Handle.key := by
    intro hmem
    obtain ⟨b, hb, rfl⟩ := List.mem_map.mp hmem
    rw [h.taken b hb] at ha
    cases ha
  have hsame : y.store.Stores k ↔ x.store.Stores k := by
    rw [Store.stores_iff, Store.stores_iff, h.layout, h.others k hnot]
  rcases h.deferred k a ha with ⟨hold, -⟩ | ⟨-, hnone, -⟩
  · rw [hsame, and_iff_right (FiniteMap.mem_keys_iff.mpr ⟨a, hold⟩)]
  · have hunstored : ¬ x.store.Stores k := by
      rintro ⟨stored, hstored⟩
      rw [hnone] at hstored
      cases hstored
    exact iff_of_false (mt hsame.mp hunstored) fun hboth => hunstored hboth.2

/-- When a session changes, an atom that is lazy afterwards is stored exactly if it was lazy before
and is stored already or directly. -/
theorem Changes.stores_iff {keys : List GroundKey} (h : x.Changes keys y) (hx : x.manager.Sound)
    (hpolicy : x.manager.policy = .deferring threshold) (hs : x.store.Sound)
    (hapart : x.store.layout.lazy ≠ x.store.layout.write) (hk : k ∈ y.manager.lazy.keys) :
    y.store.Stores k ↔ k ∈ x.manager.lazy.keys ∧ (x.store.Stores k ∨ k ∈ keys) := by
  cases h with
  | extend h =>
    rw [or_iff_left List.not_mem_nil]
    exact (and_iff_right_of_imp (h.mem_lazy_of_stores hk)).symm
  | setValue a value =>
    rw [or_iff_left List.not_mem_nil]
    exact (and_iff_right hk).symm
  | activate h =>
    rw [or_iff_left List.not_mem_nil]
    rcases activate_outcomes hx hpolicy h with ⟨-, -, rfl⟩ | ⟨-, -, rfl⟩ |
      ⟨-, -, -, hactivates⟩ | ⟨-, -, grounded, hactivates, ps, -, rfl⟩
    · exact (and_iff_right hk).symm
    · exact (and_iff_right hk).symm
    · exact hactivates.stores_iff hk
    · obtain ⟨-, -, -, hpromotes⟩ := grounded.promotes_unstage ps
      have hunstages := grounded.unstages_unstage (hactivates.layout ▸ hapart) ps
      rw [hunstages.stores_iff]
      exact hactivates.stores_iff (hpromotes.lazy ▸ hk)
  | commit h => exact (Store.stores_iff_of_commit h).trans (and_iff_right hk).symm
  | move h =>
    rw [or_iff_left List.not_mem_nil]
    exact (hs.stores_iff_of_moveToWrite h).trans (and_iff_right hk).symm

/-- An atom that is lazy after several actions is stored exactly if it was lazy and stored before,
or is stored directly while it is lazy. -/
theorem stores_after_iff (hx : x.work.Keeps (.fresh (.deferring threshold)) hs)
    (hstore : x.store.Sound) (hapart : x.store.layout.lazy ≠ x.store.layout.write)
    {actions : List Action} (hk : k ∈ (x.after actions).manager.lazy.keys) :
    (x.after actions).store.Stores k ↔
      (k ∈ x.manager.lazy.keys ∧ x.store.Stores k) ∨ k ∈ x.forestalledBy actions := by
  induction actions generalizing x hs with
  | nil => exact (and_iff_right hk).symm.trans (or_iff_left List.not_mem_nil).symm
  | cons a actions ih =>
    have hkeeps := keeps_perform hx a
    have hchanges := x.changes_perform a
    have hsound : (x.perform a).store.Sound := hchanges.becomes.sound hstore
    have hlayout : (x.perform a).store.layout = x.store.layout := layout_perform hx a
    have hstep := hchanges.stores_iff (k := k) hx.sound hx.grows.policy hstore hapart
    have hlast := keeps_after hkeeps actions
    -- What is lazy at the beginning and at the end is lazy in between.
    have hmid : k ∈ x.manager.lazy.keys → k ∈ (x.perform a).manager.lazy.keys := fun hold =>
      Manager.Grows.mem_lazy_keys hx.sound (keeps_perform hx.refl a).grows
        (keeps_after hkeeps.refl actions).grows hlast.sound hold hk
    refine (ih hkeeps hsound (hlayout ▸ hapart) hk).trans ?_
    rw [forestalledBy, List.mem_append, List.mem_filter, FiniteMap.contains_iff]
    constructor
    · rintro (⟨hlazy, hstored⟩ | hlater)
      · obtain ⟨hold, hstored | hnew⟩ := (hstep hlazy).mp hstored
        · exact .inl ⟨hold, hstored⟩
        · exact .inr (.inr ⟨hnew, hold⟩)
      · exact .inr (.inl hlater)
    · rintro (⟨hold, hstored⟩ | hlater | ⟨hnew, hold⟩)
      · exact .inl ⟨hmid hold, (hstep (hmid hold)).mpr ⟨hold, .inl hstored⟩⟩
      · exact .inr hlater
      · exact .inl ⟨hmid hold, (hstep (hmid hold)).mpr ⟨hold, .inr hnew⟩⟩

end Forestalling

section Refusal

/-- Eligible atoms may be staged as far as their predicates and values go, so only their places can
be wrong. -/
theorem insertFault?_of_mem_eligible (hx : x.manager.Sound) (hdefers : x.manager.DefersStorable)
    {a : Handle} (ha : a ∈ x.eligible threshold) :
    x.store.insertFault? a.key (x.pool.value a) x.store.layout.lazy =
      x.store.placeFault? a.key x.store.layout.lazy := by
  obtain ⟨hlazy, hvalue⟩ := (mem_eligible_iff hx).mp ha
  obtain ⟨v, hv⟩ := hdefers.clamped a.key a hlazy
  have hunit : SoftValue.inUnit (x.pool.value a) = true := by
    change x.pool.value a = SoftValue.clamp v at hv
    rw [hv] at hvalue ⊢
    exact SoftValue.inUnit_clamp_of_le hvalue
  rw [Store.insertFault?, Store.writeFault?_eq_none_iff.mpr
    ⟨x.store.layout.contains_lazy, hdefers.standard a.key a hlazy, hunit⟩]
  rfl

/-- The store refuses the eligible atoms only because one of them lies elsewhere. -/
theorem placeFault?_of_activate (hx : x.manager.Sound)
    (hpolicy : x.manager.policy = .deferring threshold) (hdefers : x.manager.DefersStorable)
    {b : RuleBase} {fault : StoreFault} (h : x.activate b = (.error (.store fault), y)) :
    ∃ a ∈ x.eligible threshold, x.store.placeFault? a.key x.store.layout.lazy = some fault := by
  obtain ⟨-, _, hthreshold, hcommit⟩ := commit_eq_error_of_activate h
  rw [hpolicy] at hthreshold
  cases hthreshold
  obtain ⟨e, he, hfault⟩ := Store.exists_of_commit_eq_error (map_eq_error_iff.mp hcommit)
  obtain ⟨a, ha, rfl⟩ := List.mem_map.mp he
  rw [insertFault?_of_mem_eligible hx hdefers ha] at hfault
  exact ⟨a, ha, hfault⟩

/-- If one of the eligible atoms lies elsewhere, the store refuses them all. -/
theorem activate_of_mem_eligible (hpolicy : x.manager.policy = .deferring threshold) {a : Handle}
    (ha : a ∈ x.eligible threshold) {stored : StoredAtom}
    (hstored : x.store.rows.find? a.key = some stored)
    (helsewhere : stored.partition ≠ x.store.layout.lazy) (b : RuleBase) :
    ∃ fault, x.activate b = (.error (.store fault), x) := by
  cases hcommit : x.commit (x.eligible threshold) x.store.layout.lazy with
  | error fault => exact ⟨fault, activate_of_commit_eq_error b hpolicy hcommit⟩
  | ok z =>
    obtain ⟨store, hstore, -⟩ := map_eq_ok_iff.mp hcommit
    have hallowed := (Store.commits_of_commit hstore).1 _ (List.mem_map.mpr ⟨a, ha, rfl⟩)
    exact absurd ((Store.insertFault?_eq_none_iff.mp hallowed).2 stored hstored) helsewhere

/-- Whatever happens in a session under one deferring manager over a store that was empty: a lazy
atom is stored exactly if somebody has stored it directly while it was lazy. The store refuses to
activate atoms exactly if an eligible one is stored elsewhere than in the lazy partition; it says
which, and nothing changes. So as long as nobody stores lazy atoms, none is stored, and the store
never refuses to activate them. -/
theorem lazy_atoms_are_stored_by_others {read : List PartitionId} {write lazy : PartitionId}
    {layout : PartitionLayout} (hlayout : PartitionLayout.make read write lazy = .ok layout)
    {default : Float} {actions : List Action}
    (hx : x = (start (.empty layout default) (.deferring threshold)).after actions) :
    (∀ k ∈ x.manager.lazy.keys, x.store.Stores k ↔
      k ∈ (start (.empty layout default) (.deferring threshold)).forestalledBy actions) ∧
    (∀ b fault y, x.activate b = (.error (.store fault), y) → y = x ∧
      ∃ a ∈ x.eligible threshold, ∃ stored, x.store.get? a.key = some stored ∧
        stored.partition ≠ layout.lazy ∧
        fault = .duplicateAtom a.key.toText stored.partition) ∧
    (∀ a ∈ x.eligible threshold, ∀ stored, x.store.get? a.key = some stored →
      stored.partition ≠ layout.lazy → ∀ b, ∃ fault, x.activate b = (.error (.store fault), x)) ∧
    ((∀ k ∈ x.manager.lazy.keys,
        k ∉ (start (.empty layout default) (.deferring threshold)).forestalledBy actions) →
      (∀ k ∈ x.manager.lazy.keys, ¬ x.store.Stores k) ∧
        ∀ b fault y, x.activate b ≠ (.error (.store fault), y)) := by
  have hstart := keeps_start (.empty layout default) (.deferring threshold)
  have hapart := PartitionLayout.lazy_ne_write_of_make hlayout
  obtain ⟨hmanager, hpolicy⟩ := sound_and_deferring_after hx
  obtain ⟨writes, hwrites⟩ :=
    becomes_after (start (.empty layout default) (.deferring threshold)) actions
  rw [← hx] at hwrites
  have hstore : x.store.Sound := hwrites ▸ (Store.sound_empty layout default).writeAll writes
  have hsame : x.store.layout = layout := hwrites ▸ Store.layout_writeAll _ writes
  have hdefers : x.manager.DefersStorable := by
    rw [hx]
    exact defersStorable_after hstart ⟨default, rfl⟩ (Manager.defersStorable_fresh _) actions
  have hforestalled : ∀ k ∈ x.manager.lazy.keys, x.store.Stores k ↔
      k ∈ (start (.empty layout default) (.deferring threshold)).forestalledBy actions := by
    intro k hk
    rw [hx] at hk ⊢
    refine (stores_after_iff hstart (Store.sound_empty layout default) hapart hk).trans ?_
    exact or_iff_right fun hlazy => absurd hlazy.1 List.not_mem_nil
  have hrefused : ∀ b fault y, x.activate b = (.error (.store fault), y) → y = x ∧
      ∃ a ∈ x.eligible threshold, ∃ stored, x.store.get? a.key = some stored ∧
        stored.partition ≠ layout.lazy ∧
        fault = .duplicateAtom a.key.toText stored.partition := by
    intro b fault y h
    obtain ⟨a, ha, hplace⟩ := placeFault?_of_activate hmanager hpolicy hdefers h
    rw [hsame, Store.placeFault?_eq_some_iff, ← hstore.get?_eq] at hplace
    exact ⟨eq_of_activate_eq_store h, a, ha, hplace⟩
  refine ⟨hforestalled, hrefused, ?_, fun hnone => ⟨?_, ?_⟩⟩
  · intro a ha stored hstored helsewhere b
    rw [hstore.get?_eq] at hstored
    exact activate_of_mem_eligible hpolicy ha hstored (hsame.symm ▸ helsewhere) b
  · exact fun k hk hstored => hnone k hk ((hforestalled k hk).mp hstored)
  · intro b fault y h
    obtain ⟨-, a, ha, stored, hstored, -⟩ := hrefused b fault y h
    have hlazy := FiniteMap.mem_keys_iff.mpr ⟨a, ((mem_eligible_iff hmanager).mp ha).1⟩
    exact hnone a.key hlazy ((hforestalled a.key hlazy).mp ⟨stored, hstored⟩)

/-- Another atom, which nobody else stores. -/
def uncontestedKey : GroundKey := ⟨.standard "Open" [.integer], [.integer 2], rfl⟩

/-- After somebody has stored the one lazy atom, the other one is resolved and raised as well. -/
def blockedActions : List Action := contestedActions ++ [
  .resolve uncontestedKey.predicate uncontestedKey.args,
  .setValue ⟨uncontestedKey, 1⟩ 0.9]

/-- The session after these actions. -/
def blocked : Session := (start contestedStore (.deferring 0.5)).after blockedActions

/-- Of the two lazy atoms, the one that was stored while it was lazy is stored, and blocks the
activation. -/
theorem blocked_by_forestalled_atom :
    PartitionLayout.make [⟨0⟩] ⟨1⟩ ⟨2⟩ = .ok contestedStore.layout ∧
      (start contestedStore (.deferring 0.5)).forestalledBy blockedActions = [contestedKey] ∧
      blocked.store.Stores contestedKey ∧ ¬ blocked.store.Stores uncontestedKey ∧
      ∃ fault, blocked.activate .empty = (.error (.store fault), blocked) := by
  have hlayout : PartitionLayout.make [⟨0⟩] ⟨1⟩ ⟨2⟩ = .ok Store.sampleLayout := rfl
  have hx : blocked = (start (.empty Store.sampleLayout 0.0) (.deferring 0.5)).after
      blockedActions := rfl
  obtain ⟨hstored, -, hrefused, -⟩ := lazy_atoms_are_stored_by_others hlayout hx
  have hforestalled : (start (.empty Store.sampleLayout 0.0) (.deferring 0.5)).forestalledBy
      blockedActions = [contestedKey] := by decide +kernel
  have hkeys : blocked.manager.lazy.keys = [contestedKey, uncontestedKey] := by decide +kernel
  simp only [hkeys, hforestalled, List.mem_singleton] at hstored
  refine ⟨hlayout, hforestalled, (hstored _ List.mem_cons_self).mpr rfl, ?_, ?_⟩
  · rw [hstored _ (List.mem_cons_of_mem _ List.mem_cons_self)]
    decide +kernel
  · have hvalue : 0.5 ≤ blocked.pool.value ⟨contestedKey, 0⟩ := by decide +kernel
    have heligible : (⟨contestedKey, 0⟩ : Handle) ∈ blocked.eligible 0.5 :=
      (mem_eligible_iff (sound_and_deferring_after hx).1).mpr ⟨rfl, hvalue⟩
    have helsewhere : (⟨1⟩ : PartitionId) ≠ ⟨2⟩ := by decide
    exact hrefused _ heligible ⟨0.5, ⟨1⟩⟩ rfl helsewhere .empty

/-- So a lazy atom may be stored, and one that is blocks the activation of another one, which has
reached the threshold and is not stored. -/
theorem contested_atom_blocks_activation :
    PartitionLayout.make [⟨0⟩] ⟨1⟩ ⟨2⟩ = .ok contestedStore.layout ∧
      Policy.defer 0.5 = .ok (.deferring 0.5) ∧
      contestedKey ∈ blocked.manager.lazy.keys ∧
      blocked.store.get? contestedKey = some ⟨0.5, ⟨1⟩⟩ ∧
      blocked.manager.lazy.find? uncontestedKey = some ⟨uncontestedKey, 1⟩ ∧
      0.5 ≤ blocked.pool.value ⟨uncontestedKey, 1⟩ ∧
      blocked.store.get? uncontestedKey = none ∧
      blocked.activate .empty =
        (.error (.store (.duplicateAtom contestedKey.toText ⟨1⟩)), blocked) := by
  have hx : blocked = (start (.empty Store.sampleLayout 0.0) (.deferring 0.5)).after
      blockedActions := rfl
  obtain ⟨hsound, hpolicy⟩ := sound_and_deferring_after hx
  have hkeys : blocked.manager.lazy.keys = [contestedKey, uncontestedKey] := by decide +kernel
  have hvalue : 0.5 ≤ blocked.pool.value ⟨uncontestedKey, 1⟩ := by decide +kernel
  have hdefer : Policy.defer 0.5 = .ok (.deferring 0.5) := if_pos (by decide)
  have hcontested : (⟨contestedKey, 0⟩ : Handle) ∈ blocked.eligible 0.5 :=
    (mem_eligible_iff hsound).mpr ⟨rfl, by decide +kernel⟩
  have hdefers : blocked.manager.DefersStorable := by
    rw [hx]
    exact defersStorable_after (keeps_start ..) ⟨0.0, rfl⟩ (Manager.defersStorable_fresh _) _
  have hstored : blocked.store.rows.find? contestedKey = some ⟨0.5, ⟨1⟩⟩ := rfl
  have helsewhere : (⟨1⟩ : PartitionId) ≠ blocked.store.layout.lazy := by decide +kernel
  -- The store refuses the eligible atoms, and of the two lazy ones only this lies elsewhere.
  obtain ⟨fault, hrefused⟩ :=
    activate_of_mem_eligible hpolicy hcontested hstored helsewhere .empty
  obtain ⟨a, ha, hplace⟩ := placeFault?_of_activate hsound hpolicy hdefers hrefused
  have hlazy := FiniteMap.mem_keys_iff.mpr ⟨a, ((mem_eligible_iff hsound).mp ha).1⟩
  rw [hkeys, List.mem_pair] at hlazy
  rcases hlazy with hkey | hkey
  · rw [hkey] at hplace
    cases hplace
    exact ⟨rfl, hdefer, hkeys ▸ List.mem_cons_self, rfl, rfl, hvalue, rfl, hrefused⟩
  · rw [hkey] at hplace
    cases hplace

end Refusal

end Session

end RuleGrounding
