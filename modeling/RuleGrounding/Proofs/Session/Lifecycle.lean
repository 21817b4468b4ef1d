import RuleGrounding.Proofs.Session.Histories

/-!
# The life of an atom

Under one deferring manager an atom goes from unseen to lazy to cached, or from
unseen to cached, and all its handles are one instance.
-/

namespace RuleGrounding

/-- How far an atom has come under a manager. -/
inductive AtomStatus where
  /-- The manager has no instance of it. -/
  | unseen
  /-- It is lazy. -/
  | lazy
  /-- It is among the resolved atoms. -/
  | cached
  deriving DecidableEq

/-- The place of a status in the life of an atom. -/
def AtomStatus.rank : AtomStatus → Nat
  | unseen => 0
  | lazy => 1
  | cached => 2

namespace Manager

/-- How far an atom has come. -/
def status (m : Manager) (k : GroundKey) : AtomStatus :=
  if m.known.contains k then .cached
  else if m.lazy.contains k then .lazy
  else .unseen

theorem rank_status_of_known {m : Manager} {k : GroundKey} (h : k ∈ m.known.keys) :
    (m.status k).rank = 2 := by
  rw [status, if_pos (FiniteMap.contains_iff.mpr h)]
  rfl

theorem rank_status_pos_iff {m : Manager} {k : GroundKey} :
    0 < (m.status k).rank ↔ ∃ h, m.instance? k = some h := by
  rw [status, instance?]
  by_cases hknown : k ∈ m.known.keys
  · obtain ⟨h, hh⟩ := FiniteMap.mem_keys_iff.mp hknown
    rw [if_pos (FiniteMap.contains_iff.mpr hknown), hh]
    cases m.lazy.find? k <;> simp [AtomStatus.rank]
  · rw [if_neg (mt FiniteMap.contains_iff.mp hknown), FiniteMap.find?_eq_none_iff.mpr hknown,
      Option.or_none, ← FiniteMap.mem_keys_iff]
    split
    · rename_i hlazy
      exact ⟨fun _ => FiniteMap.contains_iff.mp hlazy, fun _ => Nat.one_pos⟩
    · rename_i hlazy
      exact ⟨fun h => absurd h (Nat.lt_irrefl 0), fun h => absurd (FiniteMap.contains_iff.mpr h)
        hlazy⟩

/-- Under a later manager an atom has come at least as far. -/
theorem Grows.rank_status_le {m m' : Manager} (hm : m.Sound) (h : m.Grows m') (k : GroundKey) :
    (m.status k).rank ≤ (m'.status k).rank := by
  by_cases hknown : k ∈ m.known.keys
  · obtain ⟨a, ha⟩ := FiniteMap.mem_keys_iff.mp hknown
    have hlater : k ∈ m'.known.keys := FiniteMap.mem_keys_iff.mpr ⟨a, h.known k a ha⟩
    exact Nat.le_of_eq ((rank_status_of_known hknown).trans (rank_status_of_known hlater).symm)
  · have hle : (m.status k).rank ≤ 1 := by
      rw [status, if_neg (mt FiniteMap.contains_iff.mp hknown)]
      split <;> decide
    rcases Nat.eq_zero_or_pos (m.status k).rank with hzero | hpos
    · rw [hzero]
      exact Nat.zero_le _
    · obtain ⟨a, ha⟩ := rank_status_pos_iff.mp hpos
      have hgives := h.gives a (hm.gives_of_instance? ha)
      rw [Gives, hm.filed k a ha] at hgives
      exact Nat.le_trans hle (rank_status_pos_iff.mpr ⟨a, hgives⟩)

end Manager

namespace Session

variable {x y : Session}

/-- When the store refuses the eligible atoms, activation fails and changes nothing. -/
theorem activate_of_commit_eq_error {threshold : Float} {fault : StoreFault} (b : RuleBase)
    (hpolicy : x.manager.policy = .deferring threshold)
    (h : x.commit (x.eligible threshold) x.store.layout.lazy = .error fault) :
    x.activate b = (.error (.store fault), x) := by
  have hne : (x.eligible threshold).isEmpty = false := by
    cases hatoms : x.eligible threshold with
    | nil =>
      rw [hatoms] at h
      cases h
    | cons a as => rfl
  have hactivate : x.activateAtoms b (x.eligible threshold) = (.error (.store fault), x) := by
    rw [activateAtoms, stage_eq_error_iff.mpr ⟨fault, h, rfl⟩]
  rw [activate, hpolicy, Policy.threshold?]
  dsimp only
  rw [hne, hactivate]
  rfl

end Session

/-- Grounding rules for staged atoms is never refused by the store. -/
theorem RuleBase.groundStaged_ne_store {b : RuleBase} {s : Store} {predicates : List Predicate}
    {indices : List Nat} {w w' : Workspace} {fault : StoreFault} :
    b.groundStaged s predicates indices w ≠ (.error (.store fault), w') := by
  induction indices generalizing w with
  | nil => exact fun h => by cases h
  | cons index rest ih =>
    intro h
    rcases groundStaged_cons_cases h with ⟨-, hrest⟩ |
      ⟨r, -, ⟨stop, hr, hstop⟩ | ⟨n, w₁, later, -, hrest, hlater⟩⟩
    · exact ih hrest
    · rcases LogicalRule.groundStaged_cases hr with ⟨-, he | ⟨fault', he⟩⟩ |
        ⟨results, ground, -, -, he⟩
      · cases hstop
        cases he
      · cases hstop
        cases he
      · rw [← hstop] at he
        cases ground <;> cases he
    · rw [map_eq_error_iff.mp hlater.symm] at hrest
      exact ih hrest

namespace Session

variable {x y : Session}

/-- An activation that fails with a fault of the store fails in its first stage: the store refuses
to have the eligible atoms staged. -/
theorem commit_eq_error_of_activate {b : RuleBase} {fault : StoreFault}
    (h : x.activate b = (.error (.store fault), y)) : y = x ∧
      ∃ threshold, x.manager.policy.threshold? = some threshold ∧
        x.commit (x.eligible threshold) x.store.layout.lazy = .error fault := by
  rcases activate_cases h with ⟨hresult, -⟩ | ⟨threshold, activated, hthreshold, hrun, hresult⟩
  · cases hresult
  · rw [map_eq_error_iff.mp hresult.symm] at hrun
    rcases activateAtoms_cases hrun with ⟨stop, hstage, hstop, rfl⟩ |
      ⟨staged, ground, w, -, hground, ⟨stop, rfl, hstop, -⟩ | ⟨n, -, hunstage⟩⟩
    · obtain ⟨refusal, hcommit, rfl⟩ := stage_eq_error_iff.mp hstage
      cases hstop
      exact ⟨rfl, threshold, hthreshold, hcommit⟩
    · cases hstop
      exact absurd hground RuleBase.groundStaged_ne_store
    · have hok := unstage_fst { staged with work := w } (standardPredicates (x.eligible threshold))
      rw [hunstage] at hok
      cases hok

/-- So such an activation changes nothing. -/
theorem eq_of_activate_eq_store {b : RuleBase} {fault : StoreFault}
    (h : x.activate b = (.error (.store fault), y)) : y = x :=
  (commit_eq_error_of_activate h).1

/-- However a session under one deferring manager goes: no key is both lazy and known; whatever
happens later, an atom only moves forward; of the instances seen so far those of one key, or of one
cell, are the same; and an activation whose atoms the store refuses changes nothing. -/
theorem atoms_move_forward_as_single_instances {s : Store} {threshold : Float}
    {actions : List Action} (hx : x = (start s (.deferring threshold)).after actions) :
    (∀ k, k ∈ x.manager.lazy.keys → k ∉ x.manager.known.keys) ∧
    (∀ later k, (x.manager.status k).rank ≤ ((x.after later).manager.status k).rank) ∧
    (∀ h ∈ (start s (.deferring threshold)).seen actions,
      ∀ h' ∈ (start s (.deferring threshold)).seen actions,
        (h.key = h'.key → h = h') ∧ (h.serial = h'.serial → h = h')) ∧
    (∀ b fault, x.commit (x.eligible threshold) x.store.layout.lazy = .error fault →
      x.activate b = (.error (.store fault), x)) ∧
    ∀ b fault y, x.activate b = (.error (.store fault), y) → y = x := by
  subst hx
  have hkeeps := keeps_after (keeps_start s (.deferring threshold)) actions
  have hsound := hkeeps.sound
  have hgives : ∀ h ∈ (start s (.deferring threshold)).seen actions,
      ((start s (.deferring threshold)).after actions).manager.Gives h := by
    intro h hh
    rcases List.mem_append.mp hh with hh | hh
    · exact hkeeps.handles h (List.mem_append_left _ hh)
    · obtain ⟨g, hg, hh⟩ := List.mem_flatMap.mp hh
      exact hkeeps.rules g hg h hh
  refine ⟨hsound.disjoint, fun later k => ?_, fun h hh h' hh' => ⟨fun hkey => ?_, fun he => ?_⟩,
    fun b fault hfault => ?_, fun b fault y hy => eq_of_activate_eq_store hy⟩
  · exact (keeps_after hkeeps.refl later).grows.rank_status_le hsound k
  · exact (hgives h hh).eq_of_key_eq (hgives h' hh') hkey
  · exact hsound.separate h h' (hgives h hh) (hgives h' hh') he
  · exact activate_of_commit_eq_error b hkeeps.grows.policy hfault

/-- An atom that is not stored. -/
def contestedKey : GroundKey := ⟨.standard "Open" [.integer], [.integer 1], rfl⟩

/-- A store without atoms. -/
def contestedStore : Store := .empty ⟨[⟨0⟩], ⟨1⟩, ⟨2⟩⟩ 0.0

/-- The atom is resolved twice and raised, and then somebody else stores it. -/
def contestedActions : List Action := [
  .resolve contestedKey.predicate contestedKey.args,
  .setValue ⟨contestedKey, 0⟩ 0.9,
  .resolve contestedKey.predicate contestedKey.args,
  .insert contestedKey 0.5 ⟨1⟩]

/-- The session after these actions. -/
def contested : Session := (start contestedStore (.deferring 0.5)).after contestedActions

/-- The raised atom stays lazy and one instance, since the store refuses to have it staged. -/
theorem contested_stays_lazy :
    contestedKey ∈ contested.manager.lazy.keys ∧ contestedKey ∉ contested.manager.known.keys ∧
    (contested.manager.status contestedKey).rank ≤
      ((contested.after [.activate .empty]).manager.status contestedKey).rank ∧
    (start contestedStore (.deferring 0.5)).seen contestedActions =
      [⟨contestedKey, 0⟩, ⟨contestedKey, 0⟩] ∧
    (∀ h ∈ (start contestedStore (.deferring 0.5)).seen contestedActions,
      ∀ h' ∈ (start contestedStore (.deferring 0.5)).seen contestedActions, h = h') ∧
    ∃ fault, contested.commit (contested.eligible 0.5) ⟨2⟩ = .error fault ∧
      contested.activate .empty = (.error (.store fault), contested) := by
  have hx : contested = (start contestedStore (.deferring 0.5)).after contestedActions := rfl
  obtain ⟨hdisjoint, hforward, hsingle, hrefused, -⟩ := atoms_move_forward_as_single_instances hx
  have hlazy : contestedKey ∈ contested.manager.lazy.keys := List.mem_singleton_self contestedKey
  have hseen : (start contestedStore (.deferring 0.5)).seen contestedActions =
      [⟨contestedKey, 0⟩, ⟨contestedKey, 0⟩] := rfl
  have heligible : contested.eligible 0.5 = [⟨contestedKey, 0⟩] :=
    List.mergeSort_singleton (⟨contestedKey, 0⟩ : Handle)
  have hfault : contested.commit (contested.eligible 0.5) ⟨2⟩ =
      .error (.duplicateAtom contestedKey.toText ⟨1⟩) := by
    rw [heligible]
    rfl
  refine ⟨hlazy, hdisjoint _ hlazy, hforward _ _, hseen, fun h hh h' hh' => ?_, _, hfault,
    hrefused _ _ hfault⟩
  have hkey : h.key = h'.key := by
    rw [hseen] at hh hh'
    simp only [List.mem_cons, List.not_mem_nil, or_false, or_self] at hh hh'
    rw [hh, hh']
  exact (hsingle h hh h' hh').1 hkey

end Session

end RuleGrounding
