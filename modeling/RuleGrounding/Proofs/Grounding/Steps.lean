import RuleGrounding.Grounding

/-!
# What grounding steps ensure

A grounding step fails or succeeds, and leaves a workspace in either case. A
contract says what holds of the result and of that workspace; the contracts of
compound steps follow from those of their parts.
-/

namespace RuleGrounding

namespace Grounding

variable {α β : Type}

@[simp] theorem runOn_pure (a : α) (w : Workspace) :
    (pure a : Grounding α).runOn w = (.ok a, w) := rfl

@[simp] theorem runOn_throw (fault : GroundingFault) (w : Workspace) :
    (throw fault : Grounding α).runOn w = (.error fault, w) := rfl

/-- A compound step goes on from the workspace that its first part leaves, unless that fails. -/
theorem runOn_bind (x : Grounding α) (f : α → Grounding β) (w : Workspace) :
    (x >>= f).runOn w =
      match x.runOn w with
      | (.ok a, w') => (f a).runOn w'
      | (.error fault, w') => (.error fault, w') := by
  change (match x.runOn w with
    | (r, w') => StateT.run (ExceptT.bindCont f r) w') = _
  obtain ⟨r, w'⟩ := x.runOn w
  cases r <;> rfl

/-- A compound step succeeds when both of its parts do. -/
theorem runOn_bind_eq_ok_iff {x : Grounding α} {f : α → Grounding β} {w w'' : Workspace} {b : β} :
    (x >>= f).runOn w = (.ok b, w'') ↔
      ∃ a w', x.runOn w = (.ok a, w') ∧ (f a).runOn w' = (.ok b, w'') := by
  rw [runOn_bind]
  split
  · rename_i a w' hx
    rw [hx]
    constructor
    · exact fun h => ⟨a, w', rfl, h⟩
    · rintro ⟨_, _, he, h⟩
      obtain ⟨ha, rfl⟩ := Prod.mk.inj he
      rwa [Except.ok.inj ha]
  · rename_i fault w' hx
    rw [hx]
    constructor
    · exact fun h => by cases (Prod.mk.inj h).1
    · rintro ⟨_, _, he, _⟩
      cases (Prod.mk.inj he).1

theorem runOn_pure_eq_ok_iff {a b : α} {w w' : Workspace} :
    (pure a : Grounding α).runOn w = (.ok b, w') ↔ a = b ∧ w = w' := by
  rw [runOn_pure, Prod.mk.injEq, Except.ok.injEq]

theorem runOn_throw_ne_ok {fault : GroundingFault} {b : α} {w w' : Workspace} :
    ¬ (throw fault : Grounding α).runOn w = (.ok b, w') := by
  rw [runOn_throw, Prod.mk.injEq]
  exact fun h => by cases h.1

/-- From a workspace with `P` the step leads to one with `Q` for its result, or with `E` for its
fault. -/
def Ensures (P : Workspace → Prop) (step : Grounding α) (Q : α → Workspace → Prop)
    (E : GroundingFault → Workspace → Prop) : Prop :=
  ∀ w, P w →
    match step.runOn w with
    | (.ok a, w') => Q a w'
    | (.error fault, w') => E fault w'

section Contracts

variable {P : Workspace → Prop} {Q : α → Workspace → Prop} {R : β → Workspace → Prop}
  {E : GroundingFault → Workspace → Prop}

theorem ensures_pure {a : α} (h : ∀ w, P w → Q a w) : Ensures P (pure a) Q E := h

theorem ensures_throw {fault : GroundingFault} (h : ∀ w, P w → E fault w) :
    Ensures P (throw fault) Q E := h

/-- The second part of a compound step starts where the first part ends. -/
theorem Ensures.bind {x : Grounding α} {f : α → Grounding β} (hx : Ensures P x Q E)
    (hf : ∀ a, Ensures (Q a) (f a) R E) : Ensures P (x >>= f) R E := by
  intro w hw
  have h := hx w hw
  rw [runOn_bind]
  revert h
  split
  · exact fun h => hf _ _ h
  · exact fun h => h

theorem Ensures.imp {P' : Workspace → Prop} {Q' : α → Workspace → Prop}
    {E' : GroundingFault → Workspace → Prop} {x : Grounding α} (h : Ensures P x Q E)
    (hP : ∀ w, P' w → P w) (hQ : ∀ a w, Q a w → Q' a w) (hE : ∀ e w, E e w → E' e w) :
    Ensures P' x Q' E' := by
  intro w hw
  have hx := h w (hP w hw)
  revert hx
  split
  · exact hQ _ _
  · exact hE _ _

/-- What holds of a step's start besides may be assumed. -/
theorem Ensures.of_and {p : Prop} {x : Grounding α} (h : p → Ensures P x Q E) :
    Ensures (fun w => P w ∧ p) x Q E :=
  fun w hw => h hw.2 w hw.1

/-- A query reads the store and leaves the workspace. -/
theorem ensures_query {s : Store} {q : Query} {Q : ResultList → Workspace → Prop}
    (hok : ∀ r, q.evaluate s = .ok r → ∀ w, P w → Q r w)
    (herror : ∀ fault, q.evaluate s = .error fault → ∀ w, P w → E (.query fault) w) :
    Ensures P (query s q) Q E := by
  intro w hw
  rw [query]
  cases h : q.evaluate s with
  | error fault => exact herror fault h w hw
  | ok r => exact hok r h w hw

/-- A query that succeeds leaves the workspace. -/
theorem runOn_query_eq_ok_iff {s : Store} {q : Query} {r : ResultList} {w w' : Workspace} :
    (query s q).runOn w = (.ok r, w') ↔ q.evaluate s = .ok r ∧ w = w' := by
  rw [query]
  cases q.evaluate s with
  | error fault => exact ⟨fun h => absurd h runOn_throw_ne_ok, fun h => by cases h.1⟩
  | ok r' => rw [runOn_pure_eq_ok_iff, Except.ok.injEq]

theorem runOn_resolve (s : Store) (p : Predicate) (args : List Constant) (w : Workspace) :
    (resolve s p args).runOn w =
      match w.manager.resolve s p args with
      | .error fault => (.error (.lookup fault), w)
      | .ok (h, manager) => (.ok h, { w with manager }) := by
  change (match w.manager.resolve s p args with
    | .error fault => throw (GroundingFault.lookup fault)
    | .ok (h, manager) => (do set { w with manager }; pure h : Grounding Handle)).runOn w = _
  split <;> rfl

theorem runOn_resolve_eq_ok_iff {s : Store} {p : Predicate} {args : List Constant} {h : Handle}
    {w w' : Workspace} : (resolve s p args).runOn w = (.ok h, w') ↔
      ∃ m, w.manager.resolve s p args = .ok (h, m) ∧ w' = { w with manager := m } := by
  rw [runOn_resolve]
  cases w.manager.resolve s p args with
  | error fault =>
    constructor
    · exact fun he => by cases (Prod.mk.inj he).1
    · rintro ⟨_, he, _⟩
      cases he
  | ok r =>
    constructor
    · intro he
      obtain ⟨hh, hw⟩ := Prod.mk.inj he
      exact ⟨r.2, by rw [← Except.ok.inj hh], hw.symm⟩
    · rintro ⟨m, he, rfl⟩
      rw [Except.ok.inj he]

theorem runOn_valueOf (h : Handle) (w : Workspace) :
    (valueOf h).runOn w = (.ok (w.manager.pool.value h), w) := rfl

theorem runOn_emit (g : GroundRule) (w : Workspace) :
    (emit g).runOn w = (.ok (), { w with rules := w.rules ++ [g] }) := rfl

/-- Resolving an atom changes the manager or fails and changes nothing. -/
theorem ensures_resolve {s : Store} {p : Predicate} {args : List Constant}
    {Q : Handle → Workspace → Prop}
    (hok : ∀ w h m, P w → w.manager.resolve s p args = .ok (h, m) → Q h { w with manager := m })
    (herror : ∀ w fault, P w → w.manager.resolve s p args = .error fault → E (.lookup fault) w) :
    Ensures P (resolve s p args) Q E := by
  intro w hw
  rw [runOn_resolve]
  cases h : w.manager.resolve s p args with
  | error fault => exact herror w fault hw h
  | ok r => exact hok w r.1 r.2 hw h

theorem ensures_valueOf {h : Handle} {Q : Float → Workspace → Prop}
    (hQ : ∀ w, P w → Q (w.manager.pool.value h) w) : Ensures P (valueOf h) Q E := hQ

theorem ensures_emit {g : GroundRule} {Q : Unit → Workspace → Prop}
    (hQ : ∀ w, P w → Q () { w with rules := w.rules ++ [g] }) : Ensures P (emit g) Q E := hQ

end Contracts

section Reading

/-- A step that reads and changes nothing, and always gives the same result. -/
def Yields (step : Grounding α) (a : α) : Prop := ∀ w, step.runOn w = (.ok a, w)

theorem yields_pure (a : α) : Yields (pure a) a := fun _ => rfl

theorem Yields.bind {x : Grounding α} {f : α → Grounding β} {a : α} {b : β} (hx : Yields x a)
    (hf : Yields (f a) b) : Yields (x >>= f) b := by
  intro w
  rw [runOn_bind, hx w]
  exact hf w

theorem Yields.exists_bind {x : Grounding α} {f : α → Grounding β} {a : α} (hx : Yields x a)
    (hf : ∃ b, Yields (f a) b) : ∃ b, Yields (x >>= f) b :=
  hf.imp fun _ hb => hx.bind hb

/-- A step that reads and changes nothing, and always fails with the same fault. -/
def Fails (step : Grounding α) (fault : GroundingFault) : Prop :=
  ∀ w, step.runOn w = (.error fault, w)

/-- A step that reads and changes nothing, and always ends in the same way. -/
def Still (step : Grounding α) : Prop := (∃ fault, Fails step fault) ∨ ∃ a, Yields step a

theorem still_pure (a : α) : Still (pure a) := .inr ⟨a, yields_pure a⟩

theorem still_throw (fault : GroundingFault) : Still (throw fault : Grounding α) :=
  .inl ⟨fault, fun _ => rfl⟩

theorem still_query (s : Store) (q : Query) : Still (query s q) := by
  rw [query]
  split
  · exact still_throw _
  · exact still_pure _

theorem Fails.bind {x : Grounding α} {fault : GroundingFault} (hx : Fails x fault)
    (f : α → Grounding β) : Fails (x >>= f) fault := by
  intro w
  rw [runOn_bind, hx w]

/-- A first part that succeeds does not keep the second from failing. -/
theorem Yields.fails_bind {x : Grounding α} {f : α → Grounding β} {a : α} {fault : GroundingFault}
    (hx : Yields x a) (hf : Fails (f a) fault) : Fails (x >>= f) fault := by
  intro w
  rw [runOn_bind, hx w]
  exact hf w

theorem Still.bind {x : Grounding α} {f : α → Grounding β} (hx : Still x)
    (hf : ∀ a, Still (f a)) : Still (x >>= f) := by
  rcases hx with ⟨fault, hfault⟩ | ⟨a, ha⟩
  · exact .inl ⟨fault, hfault.bind f⟩
  · exact (hf a).imp (fun ⟨fault, hfault⟩ => ⟨fault, ha.fails_bind hfault⟩) ha.exists_bind

/-- The result of a still step is the same everywhere. -/
theorem Yields.unique {x : Grounding α} {a b : α} (ha : Yields x a) (hb : Yields x b) : a = b := by
  have h := (ha ⟨.fresh .strict, []⟩).symm.trans (hb ⟨.fresh .strict, []⟩)
  exact Except.ok.inj (Prod.mk.inj h).1

end Reading

end Grounding

end RuleGrounding
