import RuleGrounding.Proofs.Grounding.Extensions
import RuleGrounding.Session

/-!
# Strict and deferring managers

The two kinds of managers differ only where an atom is not stored: a strict manager
refuses it, which ends the run, and a deferring one makes it lazy, which it stays. So a
run of the one is a run of the other up to the first such atom, and a run that leaves no
lazy atom has not met any.
-/

namespace RuleGrounding

/-- A manager that refuses what is not stored, and accordingly has no lazy atoms. -/
structure Manager.Strict (m : Manager) : Prop where
  /-- What is not stored is refused. -/
  policy : m.policy = .strict
  /-- There are no lazy atoms. -/
  lazy : m.lazy = ∅

/-- The same manager, except that it defers what is not stored. -/
def Manager.deferring (m : Manager) (threshold : Float) : Manager :=
  { m with policy := .deferring threshold }

/-- The same workspace under a deferring manager. -/
def Workspace.deferring (w : Workspace) (threshold : Float) : Workspace :=
  { w with manager := w.manager.deferring threshold }

/-- Some atom of the workspace is lazy. -/
def Workspace.HasLazy (w : Workspace) : Prop := ∃ k h, w.manager.lazy.find? k = some h

/-- What is lazy stays lazy while rules are grounded. -/
theorem Workspace.HasLazy.extends {s : Store} {kind : GroundRule → Prop} {w w' : Workspace}
    (h : w.HasLazy) (hw : w.Extends s kind w') : w'.HasLazy := by
  obtain ⟨k, a, ha⟩ := h
  exact ⟨k, a, hw.manager.lazy k a ha⟩

/-- A strict manager resolves a key as a deferring one does, or refuses it where that one makes it
lazy. -/
theorem Manager.Strict.resolveKey_cases {m : Manager} (hm : m.Strict) (s : Store) (k : GroundKey)
    (threshold : Float) :
    (∃ h m', m.resolveKey s k = .ok (h, m') ∧ m'.Strict ∧
      (m.deferring threshold).resolveKey s k = .ok (h, m'.deferring threshold)) ∨
      ∃ atom h m', m.resolveKey s k = .error (.unknownAtom atom) ∧
        (m.deferring threshold).resolveKey s k = .ok (h, m') ∧ m'.lazy.find? k = some h := by
  obtain ⟨policy, pool, known, lazy⟩ := m
  obtain ⟨rfl, rfl⟩ := hm
  rw [resolveKey, resolveKey]
  dsimp only [deferring]
  rw [FiniteMap.find?_empty]
  cases known.find? k with
  | some h => exact .inl ⟨h, _, rfl, ⟨rfl, rfl⟩, rfl⟩
  | none =>
    cases hlook : s.look k with
    | present atom => exact .inl ⟨_, _, rfl, ⟨rfl, rfl⟩, rfl⟩
    | absent atom =>
      obtain rfl := Store.key_of_look (.inr hlook)
      refine .inr ⟨atom, _, _, rfl, rfl, ?_⟩
      exact (FiniteMap.find?_insert ..).trans (if_pos rfl)

/-- So it is with a predicate and constants, which may also make no key. -/
theorem Manager.Strict.resolve_cases {m : Manager} (hm : m.Strict) (s : Store) (p : Predicate)
    (args : List Constant) (threshold : Float) :
    (∃ h m', m.resolve s p args = .ok (h, m') ∧ m'.Strict ∧
      (m.deferring threshold).resolve s p args = .ok (h, m'.deferring threshold)) ∨
      (∃ fault, m.resolve s p args = .error fault ∧
        (m.deferring threshold).resolve s p args = .error fault) ∨
      ∃ atom k h m', m.resolve s p args = .error (.unknownAtom atom) ∧
        (m.deferring threshold).resolve s p args = .ok (h, m') ∧ m'.lazy.find? k = some h := by
  rw [resolve, resolve]
  cases GroundKey.make p args with
  | error refusal => exact .inr (.inl ⟨_, rfl, rfl⟩)
  | ok k =>
    rcases hm.resolveKey_cases s k threshold with hagree | ⟨atom, h, m', hrun⟩
    · exact .inl hagree
    · exact .inr (.inr ⟨atom, k, h, m', hrun⟩)

namespace Grounding

variable {s : Store} {kind : GroundRule → Prop} {α β : Type} {threshold : Float}

/-- From a strict manager and from a deferring one with the same instances, two steps have the same
result and leave the same workspace; or the first meets an atom that is not stored, and the second
leaves a lazy atom. -/
def AgreesDeferring (threshold : Float) (x x' : Grounding α) : Prop :=
  ∀ w : Workspace, w.manager.Strict →
    (∃ result w₁, x.runOn w = (result, w₁) ∧ w₁.manager.Strict ∧
      x'.runOn (w.deferring threshold) = (result, w₁.deferring threshold)) ∨
    ∃ atom w₁, x.runOn w = (.error (.lookup (.unknownAtom atom)), w₁) ∧
      (x'.runOn (w.deferring threshold)).2.HasLazy

theorem AgreesDeferring.bind {x x' : Grounding α} {f f' : α → Grounding β}
    (hx : AgreesDeferring threshold x x') (hf : ∀ a, AgreesDeferring threshold (f a) (f' a))
    (hextending : ∀ a, Extending s kind (f' a)) :
    AgreesDeferring threshold (x >>= f) (x' >>= f') := by
  intro w hw
  rw [runOn_bind, runOn_bind]
  rcases hx w hw with ⟨result, w₁, hrun, hstrict, hrun'⟩ | ⟨atom, w₁, hrun, hlazy⟩
  · rw [hrun, hrun']
    cases result with
    | ok a => exact hf a w₁ hstrict
    | error fault => exact .inl ⟨_, _, rfl, hstrict, rfl⟩
  · rw [hrun]
    refine .inr ⟨atom, w₁, rfl, ?_⟩
    -- Whatever the second run does after its first part, the lazy atom stays.
    revert hlazy
    split
    · rename_i a w₂ hrun'
      rw [hrun']
      exact fun hlazy => hlazy.extends (hextending a w₂)
    · rename_i fault w₂ hrun'
      rw [hrun']
      exact id

theorem agreesDeferring_query (q : Query) :
    AgreesDeferring threshold (query s q) (query s q) := by
  intro w hw
  rw [query]
  cases q.evaluate s with
  | error fault => exact .inl ⟨_, w, rfl, hw, rfl⟩
  | ok results => exact .inl ⟨_, w, rfl, hw, rfl⟩

theorem agreesDeferring_resolve (p : Predicate) (args : List Constant) :
    AgreesDeferring threshold (resolve s p args) (resolve s p args) := by
  intro w hw
  rw [runOn_resolve, runOn_resolve]
  rcases hw.resolve_cases s p args threshold with ⟨h, m, hrun, hm, hrun'⟩ |
    ⟨fault, hrun, hrun'⟩ | ⟨atom, k, h, m, hrun, hrun', hlazy⟩
  · rw [hrun, Workspace.deferring, hrun']
    exact .inl ⟨_, _, rfl, hm, rfl⟩
  · rw [hrun, Workspace.deferring, hrun']
    exact .inl ⟨_, _, rfl, hw, rfl⟩
  · rw [hrun, Workspace.deferring, hrun']
    exact .inr ⟨atom, _, rfl, k, h, hlazy⟩

/-- All grounding agrees: the first run follows the second one up to the first atom that is not
stored, and the second run ends with a lazy atom if there is such an atom. -/
theorem Parallel.agreesDeferring {x x' : Grounding α} (h : Parallel s s kind x x')
    (threshold : Float) : AgreesDeferring threshold x x' := by
  induction h with
  | pure a => exact fun w hw => .inl ⟨_, w, rfl, hw, rfl⟩
  | throw fault => exact fun w hw => .inl ⟨_, w, rfl, hw, rfl⟩
  | bind _ hf ihx ihf => exact ihx.bind ihf fun a => (hf a).symm.extending
  | query q => exact agreesDeferring_query q
  | resolve p args => exact agreesDeferring_resolve p args
  | read args _ =>
    have hextending : ∀ h, Extending s kind (valueOf h) := extending_valueOf
    exact (agreesDeferring_resolve _ args).bind (fun h w hw => .inl ⟨_, w, rfl, hw, rfl⟩) hextending
  | emit hg => exact fun w hw => .inl ⟨_, _, rfl, hw, rfl⟩

end Grounding

namespace Session

open Grounding

/-- A rule base is grounded by a strict manager that has resolved nothing exactly if a deferring one
that has resolved nothing grounds it over the same store and has no lazy atom then. Both count the
same number of ground rules in that case, and append the same ones, with the same instances, which
have the same values and live in the same places; and both know the same atoms. -/
theorem strict_grounds_iff_nothing_deferred (x : Session) (b : RuleBase) (threshold : Float) :
    ((∃ n, ((x.renew .strict).run b.ground).1 = .ok n) ↔
      (∃ n, ((x.renew (.deferring threshold)).run b.ground).1 = .ok n) ∧
        ((x.renew (.deferring threshold)).run b.ground).2.manager.lazy = ∅) ∧
    ∀ n y, (x.renew .strict).run b.ground = (.ok n, y) →
      ∃ z, (x.renew (.deferring threshold)).run b.ground = (.ok n, z) ∧
        z.store = y.store ∧ z.work.rules = y.work.rules ∧ z.manager.known = y.manager.known ∧
        z.pool = y.pool := by
  have hagrees := (Rule.parallel_groundAll x.store x.store b.rules).agreesDeferring threshold
    (x.renew .strict).work ⟨rfl, rfl⟩
  have hstrict : (x.renew .strict).run b.ground =
      (((b.ground x.store).runOn (x.renew .strict).work).1,
        ⟨x.store, ((b.ground x.store).runOn (x.renew .strict).work).2⟩) := rfl
  have hdeferring : (x.renew (.deferring threshold)).run b.ground =
      (((b.ground x.store).runOn ((x.renew .strict).work.deferring threshold)).1,
        ⟨x.store, ((b.ground x.store).runOn ((x.renew .strict).work.deferring threshold)).2⟩) :=
    rfl
  rw [hstrict, hdeferring]
  rcases hagrees with ⟨result, w₁, hrun, hlazy, hrun'⟩ | ⟨atom, w₁, hrun, k, h, hlazy⟩
  · rw [RuleBase.ground, hrun, hrun']
    refine ⟨(and_iff_left hlazy.lazy).symm, fun n y he => ?_⟩
    obtain ⟨rfl, rfl⟩ := Prod.mk.inj he
    exact ⟨_, rfl, rfl, rfl, rfl, rfl⟩
  · rw [RuleBase.ground, hrun]
    refine ⟨iff_of_false (fun ⟨n, he⟩ => by cases he) fun ⟨_, hempty⟩ => ?_, fun n y he => ?_⟩
    · change ((Rule.groundAll x.store b.rules).runOn
        ((x.renew .strict).work.deferring threshold)).2.manager.lazy = ∅ at hempty
      rw [hempty, FiniteMap.find?_empty] at hlazy
      cases hlazy
    · cases (Prod.mk.inj he).1

end Session

end RuleGrounding
