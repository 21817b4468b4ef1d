import RuleGrounding.Proofs.Enumeration.Queries
import RuleGrounding.Proofs.Grounding.Composition
import RuleGrounding.Session

/-!
# Sessions up to enumeration

Managers whose known and lazy atoms are enumerated in different orders find the same
instances and make new ones in the same cells. So over stores with the same rows they
ground rules alike: the results and the ground rules are the same, and so are all cells.
-/

namespace RuleGrounding

/-- A manager with the same instances, whose maps are perhaps enumerated in another order. -/
structure Manager.Reorders (m m' : Manager) : Prop where
  /-- What is not stored is dealt with in the same way. -/
  policy : m.policy = m'.policy
  /-- All instances have the same values and live in the same places. -/
  pool : m.pool = m'.pool
  /-- The known atoms are the same. -/
  known : m.known.Reorders m'.known
  /-- The lazy atoms are the same. -/
  lazy : m.lazy.Reorders m'.lazy

/-- A workspace with the same ground rules in the same order, and the same instances. -/
structure Workspace.Reorders (w w' : Workspace) : Prop where
  /-- The instances are the same. -/
  manager : w.manager.Reorders w'.manager
  /-- The ground rules are the same. -/
  rules : w.rules = w'.rules

/-- A session with the same stored atoms, the same instances and the same ground rules, whose maps
are perhaps enumerated in another order. -/
structure Session.Reorders (x y : Session) : Prop where
  /-- The stored atoms are the same. -/
  store : x.store.Reorders y.store
  /-- The instances and the ground rules are the same. -/
  work : x.work.Reorders y.work

theorem Store.Reorders.look_eq {s s' : Store} (h : s.Reorders s') (k : GroundKey) :
    s.look k = s'.look k := by
  simp only [look, h.get?_eq, h.layout, h.defaultValue]

namespace Manager

variable {m m' : Manager} {s s' : Store}

theorem Reorders.refl (m : Manager) : m.Reorders m := ⟨rfl, rfl, .refl _, .refl _⟩

/-- A key is resolved to the same instance or refused for the same reason. -/
theorem Reorders.resolveKey_cases (h : m.Reorders m') (hs : s.Reorders s') (k : GroundKey) :
    (∃ a n n', m.resolveKey s k = .ok (a, n) ∧ m'.resolveKey s' k = .ok (a, n') ∧
      n.Reorders n') ∨
    ∃ fault, m.resolveKey s k = .error fault ∧ m'.resolveKey s' k = .error fault := by
  rw [resolveKey, resolveKey, ← h.lazy.find?_eq, ← h.known.find?_eq, ← hs.look_eq, ← h.policy]
  cases m.lazy.find? k with
  | some a => exact .inl ⟨a, m, m', rfl, rfl, h⟩
  | none =>
    cases m.known.find? k with
    | some a => exact .inl ⟨a, m, m', rfl, rfl, h⟩
    | none =>
      obtain ⟨policy, pool, known, lazy⟩ := m
      obtain ⟨policy', pool', known', lazy'⟩ := m'
      obtain ⟨rfl, rfl, hknown, hlazy⟩ := h
      cases s.look k with
      | present atom =>
        exact .inl ⟨_, _, _, rfl, rfl, ⟨rfl, rfl, hknown.insert _ _, hlazy⟩⟩
      | absent atom =>
        cases policy with
        | strict => exact .inr ⟨_, rfl, rfl⟩
        | deferring threshold =>
          exact .inl ⟨_, _, _, rfl, rfl, ⟨rfl, rfl, hknown, hlazy.insert _ _⟩⟩

theorem Reorders.resolve_cases (h : m.Reorders m') (hs : s.Reorders s') (p : Predicate)
    (args : List Constant) :
    (∃ a n n', m.resolve s p args = .ok (a, n) ∧ m'.resolve s' p args = .ok (a, n') ∧
      n.Reorders n') ∨
    ∃ fault, m.resolve s p args = .error fault ∧ m'.resolve s' p args = .error fault := by
  rw [resolve, resolve]
  cases GroundKey.make p args with
  | error refusal => exact .inr ⟨_, rfl, rfl⟩
  | ok k => exact h.resolveKey_cases hs k

end Manager

namespace Grounding

variable {s s' : Store} {kind : GroundRule → Prop} {α : Type} {w w' : Workspace}

theorem reorders_resolve (hs : s.Reorders s') (hw : w.Reorders w') (p : Predicate)
    (args : List Constant) :
    ((resolve s p args).runOn w).1 = ((resolve s' p args).runOn w').1 ∧
      ((resolve s p args).runOn w).2.Reorders ((resolve s' p args).runOn w').2 := by
  rw [runOn_resolve, runOn_resolve]
  rcases hw.manager.resolve_cases hs p args with ⟨a, n, n', hrun, hrun', hn⟩ | ⟨fault, hrun, hrun'⟩
  · rw [hrun, hrun']
    exact ⟨rfl, hn, hw.rules⟩
  · rw [hrun, hrun']
    exact ⟨rfl, hw⟩

theorem reorders_query (hs : s.Reorders s') (hw : w.Reorders w') (q : Query) :
    ((query s q).runOn w).1 = ((query s' q).runOn w').1 ∧
      ((query s q).runOn w).2.Reorders ((query s' q).runOn w').2 := by
  rw [query, query, ← hs.evaluate_eq]
  cases q.evaluate s <;> exact ⟨rfl, hw⟩

/-- The second part of a compound step starts from workspaces that differ in their order only. -/
theorem reorders_bind {β : Type} {x x' : Grounding α} {f f' : α → Grounding β}
    (hx : (x.runOn w).1 = (x'.runOn w').1 ∧ (x.runOn w).2.Reorders (x'.runOn w').2)
    (hf : ∀ a {w₁ w₁' : Workspace}, w₁.Reorders w₁' → ((f a).runOn w₁).1 = ((f' a).runOn w₁').1 ∧
      ((f a).runOn w₁).2.Reorders ((f' a).runOn w₁').2) :
    ((x >>= f).runOn w).1 = ((x' >>= f').runOn w').1 ∧
      ((x >>= f).runOn w).2.Reorders ((x' >>= f').runOn w').2 := by
  rw [runOn_bind, runOn_bind]
  revert hx
  obtain ⟨result, w₁⟩ := x.runOn w
  obtain ⟨result', w₁'⟩ := x'.runOn w'
  rintro ⟨hresult, hwork⟩
  obtain rfl : result = result' := hresult
  cases result with
  | ok a => exact hf a hwork
  | error fault => exact ⟨rfl, hwork⟩

theorem reorders_valueOf (hw : w.Reorders w') (h : Handle) :
    ((valueOf h).runOn w).1 = ((valueOf h).runOn w').1 ∧
      ((valueOf h).runOn w).2.Reorders ((valueOf h).runOn w').2 := by
  rw [runOn_valueOf, runOn_valueOf, hw.manager.pool]
  exact ⟨rfl, hw⟩

/-- Over stores that differ in their order only, grounding has the same result, and leaves
workspaces that differ in their order only. -/
theorem Parallel.reorders {x x' : Grounding α} (h : Parallel s s' kind x x')
    (hs : s.Reorders s') (hw : w.Reorders w') :
    (x.runOn w).1 = (x'.runOn w').1 ∧ (x.runOn w).2.Reorders (x'.runOn w').2 := by
  induction h generalizing w w' with
  | pure a => exact ⟨rfl, hw⟩
  | throw fault => exact ⟨rfl, hw⟩
  | bind _ _ ihx ihf => exact reorders_bind (ihx hw) fun a _ _ hwork => ihf a hwork
  | query q => exact reorders_query hs hw q
  | resolve p args => exact reorders_resolve hs hw p args
  | read args _ =>
    exact reorders_bind (reorders_resolve hs hw _ args) fun a _ _ hwork => reorders_valueOf hwork a
  | emit _ => exact ⟨rfl, hw.manager, congrArg (· ++ [_]) hw.rules⟩

end Grounding

namespace Session

open Grounding

variable {x y : Session}

theorem Reorders.manager (h : x.Reorders y) : x.manager.Reorders y.manager := h.work.manager

theorem Reorders.pool_eq (h : x.Reorders y) : x.pool = y.pool := h.work.manager.pool

theorem Reorders.refl (x : Session) : x.Reorders x := ⟨.refl _, .refl _, rfl⟩

theorem Reorders.symm (h : x.Reorders y) : y.Reorders x :=
  ⟨h.store.symm, ⟨h.work.manager.policy.symm, h.work.manager.pool.symm,
    h.work.manager.known.symm, h.work.manager.lazy.symm⟩, h.work.rules.symm⟩

theorem Reorders.trans {z : Session} (h : x.Reorders y) (h' : y.Reorders z) : x.Reorders z :=
  ⟨h.store.trans h'.store, ⟨h.work.manager.policy.trans h'.work.manager.policy,
    h.work.manager.pool.trans h'.work.manager.pool,
    h.work.manager.known.trans h'.work.manager.known,
    h.work.manager.lazy.trans h'.work.manager.lazy⟩, h.work.rules.trans h'.work.rules⟩

/-- Sessions over stores that differ in their order only begin alike. -/
theorem reorders_start {s s' : Store} (h : s.Reorders s') (policy : Policy) :
    (start s policy).Reorders (start s' policy) :=
  ⟨h, .refl _, rfl⟩

theorem Reorders.setValue (h : x.Reorders y) (a : Handle) (value : Float) :
    (x.setValue a value).Reorders (y.setValue a value) :=
  ⟨h.store, ⟨h.work.manager.policy, congrArg (·.setValue a value) h.work.manager.pool,
    h.work.manager.known, h.work.manager.lazy⟩, h.work.rules⟩

/-- Grounding over the two stores has the same result. -/
theorem Reorders.run (h : x.Reorders y) {α : Type} {kind : GroundRule → Prop}
    {step : Store → Grounding α} (hstep : ∀ s s', Parallel s s' kind (step s) (step s')) :
    (x.run step).1 = (y.run step).1 ∧ (x.run step).2.Reorders (y.run step).2 := by
  obtain ⟨hresult, hwork⟩ := (hstep x.store y.store).reorders h.store h.work
  exact ⟨hresult, h.store, hwork⟩

end Session

end RuleGrounding
