import RuleGrounding.Proofs.Grounding.Deferring

/-!
# What a dropped row leaves behind

A functional literal that makes a clause true is noticed when it is its turn. By then the
literals before it have been resolved: what they name is known or lazy, whether or not it
occurs in a ground rule, and a strict manager may have refused it.
-/

namespace RuleGrounding

/-- A manager that has resolved some keys over a store, and nothing else. -/
structure Manager.Gathers (s : Store) (K : GroundKey → Prop) (m m' : Manager) : Prop where
  /-- Instances stay as they were, and new ones are as the store knows them. -/
  kept : m.Extends s m'
  /-- The keys that have been resolved have instances, and no others get one. -/
  missing : ∀ k, m'.instance? k = none ↔ m.instance? k = none ∧ ¬ K k

/-- The same standard atoms are known, and the same atoms are lazy. -/
structure Manager.KeepsStandard (m m' : Manager) : Prop where
  /-- Known standard atoms stay known, with their instances, and there are no others. -/
  known : ∀ k, k.predicate.isStandard = true → m'.known.find? k = m.known.find? k
  /-- Lazy atoms stay lazy, with their instances, and there are no others. -/
  lazy : ∀ k, m'.lazy.find? k = m.lazy.find? k

namespace Manager

variable {s : Store} {K K' : GroundKey → Prop} {m m₁ m' : Manager} {k : GroundKey}

namespace Gathers

theorem refl (s : Store) (m : Manager) : m.Gathers s (fun _ => False) m :=
  ⟨.refl s m, fun _ => (and_iff_left not_false).symm⟩

theorem trans (h : m.Gathers s K m₁) (h' : m₁.Gathers s K' m') :
    m.Gathers s (fun k => K k ∨ K' k) m' where
  kept := h.kept.trans h'.kept
  missing k := by rw [h'.missing, h.missing, and_assoc, not_or]

theorem congr (h : m.Gathers s K m') (hK : ∀ k, K k ↔ K' k) : m.Gathers s K' m' :=
  funext (fun k => propext (hK k)) ▸ h

/-- Resolving a key gathers this key. -/
theorem of_resolveKey {a : Handle} (hr : m.resolveKey s k = .ok (a, m')) :
    m.Gathers s (fun k' => k' = k) m' where
  kept := extends_of_resolveKey hr
  missing k' := by
    have hnew : ∀ {b : Handle}, m'.instance? k' = (if k' = k then some b else m.instance? k') →
        (m'.instance? k' = none ↔ m.instance? k' = none ∧ ¬ k' = k) := by
      intro b hb
      rw [hb]
      by_cases hk : k' = k <;> simp [hk]
    rcases resolveKey_cases hr with ⟨rfl, ha⟩ | ⟨hnone, atom, hlook, hlearn⟩ |
      ⟨hnone, atom, _, hlook, -, hpost⟩
    · refine (and_iff_left_of_imp ?_).symm
      rintro hnone rfl
      rw [ha] at hnone
      cases hnone
    · obtain rfl := Store.key_of_look (.inl hlook)
      obtain rfl : (m.learn atom).2 = m' := congrArg Prod.snd hlearn
      exact hnew (instance?_learn hnone k')
    · obtain rfl := Store.key_of_look (.inr hlook)
      obtain rfl : (m.postpone atom).2 = m' := congrArg Prod.snd hpost
      exact hnew (instance?_postpone atom k')

/-- What has been resolved is not refused any more; on other keys nothing changes. -/
theorem refuses_iff (h : m.Gathers s K m') : m'.Refuses s k ↔ m.Refuses s k ∧ ¬ K k := by
  constructor
  · intro hk
    obtain ⟨hnone, hnot⟩ := (h.missing k).mp hk.unresolved
    exact ⟨⟨h.kept.policy ▸ hk.policy, hnone, hk.standard, hk.stored⟩, hnot⟩
  · rintro ⟨hk, hnot⟩
    exact ⟨h.kept.policy.trans hk.policy, (h.missing k).mpr ⟨hk.unresolved, hnot⟩, hk.standard,
      hk.stored⟩

/-- A key that gets its instance has been resolved. -/
theorem of_instance? (h : m.Gathers s K m') (hnone : m.instance? k = none)
    (hsome : m'.instance? k ≠ none) : K k := by
  by_contra hnot
  exact hsome ((h.missing k).mpr ⟨hnone, hnot⟩)

/-- The new lazy atoms are those among the resolved ones that are not stored. -/
theorem mem_lazy_keys_iff (h : m.Gathers s K m') :
    k ∈ m'.lazy.keys ↔ k ∈ m.lazy.keys ∨
      K k ∧ m.instance? k = none ∧ k.predicate.isStandard = true ∧ s.get? k = none := by
  constructor
  · intro hk
    obtain ⟨a, ha⟩ := FiniteMap.mem_keys_iff.mp hk
    rcases h.kept.deferred k a ha with hold | ⟨hnone, -, hlook⟩
    · exact .inl (FiniteMap.mem_keys_iff.mpr ⟨a, hold⟩)
    · refine .inr ⟨h.of_instance? hnone ?_, hnone, Store.isStandard_of_look_eq_absent hlook,
        (Store.eq_of_look_eq_absent hlook).1⟩
      rw [instance?_of_lazy ha]
      exact Option.some_ne_none a
  · rintro (hk | ⟨hk, hnone, hstandard, hstored⟩)
    · obtain ⟨a, ha⟩ := FiniteMap.mem_keys_iff.mp hk
      exact FiniteMap.mem_keys_iff.mpr ⟨a, h.kept.lazy k a ha⟩
    · -- The key has an instance now, and it is none of a stored or computed atom.
      obtain ⟨a, ha⟩ := Option.ne_none_iff_exists'.mp fun he => ((h.missing k).mp he).2 hk
      rcases Option.or_eq_some_iff.mp ha with hlazy | ⟨-, hknown⟩
      · exact FiniteMap.mem_keys_iff.mpr ⟨a, hlazy⟩
      · rcases h.kept.learnt k a hknown with hold | ⟨-, -, hlook⟩
        · rw [instance?, hold, Option.or_eq_none_iff] at hnone
          cases hnone.2
        · rw [Store.look_of_get?_eq_none hstandard hstored] at hlook
          cases hlook

/-- Nothing comes of standard atoms exactly if those that have been resolved had instances. -/
theorem keepsStandard_iff (h : m.Gathers s K m') : m.KeepsStandard m' ↔
    ∀ k, K k → k.predicate.isStandard = true → m.instance? k ≠ none := by
  constructor
  · intro hkeeps k hk hstandard hnone
    have hsame : m'.instance? k = m.instance? k := by
      rw [instance?, instance?, hkeeps.known k hstandard, hkeeps.lazy k]
    exact ((h.missing k).mp (hsame.trans hnone)).2 hk
  · intro hold
    -- A new instance would be one of a standard atom that has been resolved and had none.
    have hnew : ∀ k, k.predicate.isStandard = true → m.instance? k = none →
        m'.instance? k ≠ none → False :=
      fun k hstandard hnone hsome => hold k (h.of_instance? hnone hsome) hstandard hnone
    refine ⟨fun k hstandard => Option.ext fun a => ⟨fun ha => ?_, h.kept.known k a⟩,
      fun k => Option.ext fun a => ⟨fun ha => ?_, h.kept.lazy k a⟩⟩
    · rcases h.kept.learnt k a ha with hk | ⟨hnone, -⟩
      · exact hk
      · refine (hnew k hstandard hnone fun he => ?_).elim
        rw [instance?, ha, Option.or_eq_none_iff] at he
        cases he.2
    · rcases h.kept.deferred k a ha with hk | ⟨hnone, -, hlook⟩
      · exact hk
      · refine (hnew k (Store.isStandard_of_look_eq_absent hlook) hnone fun he => ?_).elim
        rw [instance?_of_lazy ha] at he
        cases he

end Gathers

end Manager

/-- A key is the instance of a literal's atom under a valuation. -/
structure Literal.HasKey (l : Literal) (σ : Valuation) (k : GroundKey) : Prop where
  /-- It is one of the literal's predicate. -/
  predicate : k.predicate = l.atom.predicate
  /-- It has the constants of the literal under the valuation. -/
  args : k.args = l.atom.instanceArgs σ

/-- A key is the instance of one of the literals. -/
def Conjunction.HasKey (c : Conjunction) (σ : Valuation) (k : GroundKey) : Prop :=
  ∃ l ∈ c, l.HasKey σ k

section Keys

variable {σ : Valuation} {l : Literal} {k : GroundKey}

theorem Literal.HasKey.eq {k' : GroundKey} (h : l.HasKey σ k) (h' : l.HasKey σ k') : k = k' :=
  GroundKey.ext (h.predicate.trans h'.predicate.symm) (h.args.trans h'.args.symm)

/-- A literal whose constants are of the declared types has exactly one key. -/
theorem Literal.exists_key (h : l.atom.predicate.Accepts (l.atom.instanceArgs σ)) :
    ∃ k, GroundKey.make l.atom.predicate (l.atom.instanceArgs σ) = .ok k ∧
      ∀ k', l.HasKey σ k' ↔ k' = k := by
  obtain ⟨k, hk⟩ := GroundKey.exists_make_eq_ok h
  obtain ⟨hpredicate, hargs⟩ := GroundKey.make_eq_ok hk
  have hkey : l.HasKey σ k := ⟨hpredicate, hargs⟩
  exact ⟨k, hk, fun k' => ⟨fun h' => h'.eq hkey, fun he => he ▸ hkey⟩⟩

/-- A literal that is not true as it is read is functional. -/
theorem Literal.not_isStandard_of_hasKey {assigned : GroundKey → Option Float}
    (hl : ¬ l.ReadsTrue assigned σ) (hk : l.HasKey σ k) : ¬ k.predicate.isStandard = true := by
  intro hstandard
  refine hl fun builtin hkind => ?_
  rw [Predicate.isStandard, hk.predicate, hkind] at hstandard
  cases hstandard

theorem Conjunction.hasKey_append {c d : Conjunction} :
    Conjunction.HasKey (c ++ d) σ k ↔ c.HasKey σ k ∨ d.HasKey σ k := by
  simp only [Conjunction.HasKey, List.mem_append, or_and_right, exists_or]

theorem Conjunction.hasKey_singleton : Conjunction.HasKey [l] σ k ↔ l.HasKey σ k := by
  simp only [Conjunction.HasKey, List.mem_singleton, exists_eq_left]

end Keys

/-- Of the elements with a property there is a first one. -/
theorem exists_first {α : Type} {p : α → Prop} {xs : List α} (h : ∃ x ∈ xs, p x) :
    ∃ before x after, xs = before ++ x :: after ∧ p x ∧ ∀ y ∈ before, ¬ p y := by
  classical
  obtain ⟨x, hx, hp⟩ := h
  have hsome : (xs.find? fun y => decide (p y)).isSome :=
    List.find?_isSome.mpr ⟨x, hx, decide_eq_true hp⟩
  obtain ⟨y, hy⟩ := Option.isSome_iff_exists.mp hsome
  obtain ⟨hy, before, after, hsplit, hbefore⟩ := List.find?_eq_some_iff_append.mp hy
  exact ⟨before, y, after, hsplit, of_decide_eq_true hy, fun z hz => by simpa using hbefore z hz⟩

namespace LogicalRule

variable {r : LogicalRule} {s : Store} {σ : Valuation} {w : Workspace}
  {assigned : GroundKey → Option Float}

section Row

variable {before after : Conjunction} {l : Literal}
  (hrow : ∀ l ∈ r.clause, l.atom.predicate.Accepts (l.atom.instanceArgs σ))

include hrow

/-- Under a row whose constants are of the declared types a literal is resolved, unless the manager
refuses its key. -/
theorem runOn_resolveLiteral_cases (hl : l ∈ r.clause) :
    (∃ k, l.HasKey σ k ∧ w.manager.Refuses s k ∧
        (resolveLiteral s (ResultList.assign r.vars (r.vars.map σ)) l).runOn w =
          (.error (.lookup (.unknownAtom ⟨k, s.defaultValue, .lazy⟩)), w)) ∨
      (∀ k, l.HasKey σ k → ¬ w.manager.Refuses s k) ∧ ∃ h m,
        (resolveLiteral s (ResultList.assign r.vars (r.vars.map σ)) l).runOn w =
          (.ok h, { w with manager := m }) ∧ w.manager.Gathers s (l.HasKey σ) m := by
  obtain ⟨k, hmake, hkeys⟩ := Literal.exists_key (hrow l hl)
  have hargs : l.atom.groundArgs (ResultList.assign r.vars (r.vars.map σ)) =
      .ok (l.atom.instanceArgs σ) :=
    Atom.groundArgs_eq_ok (ResultList.extends_assign_iff.mpr rfl)
      fun v hv => ResultList.mem_keys_assign σ (mem_vars_of_mem_clause hl hv)
  rw [resolveLiteral, hargs]
  dsimp only
  rw [Grounding.runOn_resolve, Manager.resolve, hmake]
  dsimp only
  by_cases hrefused : w.manager.Refuses s k
  · rw [hrefused.resolveKey]
    exact .inl ⟨k, (hkeys k).mpr rfl, hrefused, rfl⟩
  · obtain ⟨h, m, hr⟩ := Manager.exists_resolveKey hrefused
    rw [hr]
    refine .inr ⟨fun k' hk' => (hkeys k').mp hk' ▸ hrefused, h, m, rfl, ?_⟩
    exact (Manager.Gathers.of_resolveKey hr).congr fun k' => (hkeys k').symm

/-- Literals none of which makes the clause true, and none of which is refused, are resolved one
after the other, and the rest of the clause is grounded after that. -/
theorem runOn_groundLiterals_append (hclause : ∀ l ∈ before, l ∈ r.clause)
    (hread : ∀ l ∈ before, l.ReadsTrue assigned σ) (hw : w.manager.Reflects assigned)
    (hrefused : ∀ k, before.HasKey σ k → ¬ w.manager.Refuses s k) (rest : Conjunction)
    (sides : ClauseSides) :
    ∃ m sides',
      (groundLiterals s (ResultList.assign r.vars (r.vars.map σ)) (before ++ rest) sides).runOn w =
        (groundLiterals s (ResultList.assign r.vars (r.vars.map σ)) rest sides').runOn
          { w with manager := m } ∧
      m.Reflects assigned ∧ w.manager.Gathers s (before.HasKey σ) m := by
  induction before generalizing w sides with
  | nil =>
    refine ⟨w.manager, sides, rfl, hw, (Manager.Gathers.refl s w.manager).congr fun k => ?_⟩
    exact ⟨False.elim, fun ⟨l, hl, _⟩ => absurd hl List.not_mem_nil⟩
  | cons l before ih =>
    obtain ⟨hl, hclause⟩ := List.forall_mem_cons.mp hclause
    obtain ⟨htrue, hread⟩ := List.forall_mem_cons.mp hread
    have hkeys : ∀ k, Conjunction.HasKey (l :: before) σ k ↔
        l.HasKey σ k ∨ Conjunction.HasKey before σ k := by
      intro k
      rw [← Conjunction.hasKey_singleton, ← Conjunction.hasKey_append]
      rfl
    rcases runOn_resolveLiteral_cases (s := s) (w := w) hrow hl with
      ⟨k, hk, hrefuses, -⟩ | ⟨-, h, m, hresolve, hgathers⟩
    · exact absurd hrefuses (hrefused k ((hkeys k).mpr (.inl hk)))
    · have hσ : σ.Extends (ResultList.assign r.vars (r.vars.map σ)) :=
        ResultList.extends_assign_iff.mpr rfl
      have hm := (resolveLiteral_eq_ok hσ hw hresolve).1
      have hlater : ∀ k, Conjunction.HasKey before σ k → ¬ m.Refuses s k := fun k hk hrefuses =>
        hrefused k ((hkeys k).mpr (.inr hk)) (hgathers.refuses_iff.mp hrefuses).1
      rcases runOn_groundLiterals_cons hσ hw hresolve (before ++ rest) sides with
        ⟨hfalse, -⟩ | ⟨sides₁, -, hrun, -⟩
      · exact absurd htrue hfalse
      · obtain ⟨m', sides', hrest, hm', hgathers'⟩ :=
          ih (w := { w with manager := m }) hclause hread hm hlater sides₁
        refine ⟨m', sides', hrun.trans hrest, hm', ?_⟩
        exact (hgathers.trans hgathers').congr fun k => (hkeys k).symm

variable (hclause : r.clause = before ++ l :: after)
  (hread : ∀ l ∈ before, l.ReadsTrue assigned σ) (hw : w.manager.Reflects assigned)
  (hrefused : ∀ k, before.HasKey σ k → ¬ w.manager.Refuses s k)

include hclause hread hw hrefused

/-- If the next literal is refused, this is the error that grounding the row ends with. -/
theorem runOn_groundRow_of_refused {k : GroundKey} (hk : l.HasKey σ k)
    (hrefuses : w.manager.Refuses s k) :
    ∃ m, (r.groundRow s (ResultList.assign r.vars (r.vars.map σ))).runOn w =
        (.error (.lookup (.unknownAtom ⟨k, s.defaultValue, .lazy⟩)), { w with manager := m }) ∧
      w.manager.Gathers s (before.HasKey σ) m := by
  have hbefore : ∀ l' ∈ before, l' ∈ r.clause :=
    fun l' hl' => hclause ▸ List.mem_append_left _ hl'
  have hl : l ∈ r.clause := hclause ▸ List.mem_append_right _ List.mem_cons_self
  obtain ⟨m, sides, hrun, -, hgathers⟩ :=
    runOn_groundLiterals_append hrow hbefore hread hw hrefused (l :: after) .empty
  have hstill : m.Refuses s k :=
    hgathers.refuses_iff.mpr ⟨hrefuses, fun hearlier => hrefused k hearlier hrefuses⟩
  rcases runOn_resolveLiteral_cases (s := s) (w := { w with manager := m }) hrow hl with
    ⟨k', hk', -, herror⟩ | ⟨hnever, -⟩
  · obtain rfl := hk'.eq hk
    refine ⟨m, ?_, hgathers⟩
    rw [groundRow, Grounding.runOn_bind, hclause, hrun, groundLiterals, Grounding.runOn_bind,
      herror]
  · exact absurd hstill (hnever k hk)

/-- If it makes the clause true, the row gives no clause, and the literals up to this one have been
resolved. -/
theorem runOn_groundRow_of_not_readsTrue (hfalse : ¬ l.ReadsTrue assigned σ) :
    ∃ m, (r.groundRow s (ResultList.assign r.vars (r.vars.map σ))).runOn w =
        (.ok 0, { w with manager := m }) ∧
      w.manager.Gathers s (Conjunction.HasKey (before ++ [l]) σ) m := by
  have hbefore : ∀ l' ∈ before, l' ∈ r.clause :=
    fun l' hl' => hclause ▸ List.mem_append_left _ hl'
  have hl : l ∈ r.clause := hclause ▸ List.mem_append_right _ List.mem_cons_self
  obtain ⟨m, sides, hrun, hm, hgathers⟩ :=
    runOn_groundLiterals_append hrow hbefore hread hw hrefused (l :: after) .empty
  rcases runOn_resolveLiteral_cases (s := s) (w := { w with manager := m }) hrow hl with
    ⟨k, hk, hrefuses, -⟩ | ⟨-, h, m', hresolve, hgathers'⟩
  · exact absurd hrefuses.standard (Literal.not_isStandard_of_hasKey hfalse hk)
  · rcases runOn_groundLiterals_cons (ResultList.extends_assign_iff.mpr rfl) hm hresolve after
      sides with ⟨-, hdropped⟩ | ⟨_, htrue, -⟩
    · refine ⟨m', ?_, (hgathers.trans hgathers').congr fun k => ?_⟩
      · rw [groundRow, Grounding.runOn_bind, hclause, hrun, hdropped]
        rfl
      · rw [Conjunction.hasKey_append, Conjunction.hasKey_singleton]
    · exact absurd htrue hfalse

end Row

/-- Grounding a row has come to a literal that makes the clause true, and has dropped the row. -/
structure DropsRow (s : Store) (σ : Valuation) (before : Conjunction) (l : Literal)
    (w w' : Workspace) : Prop where
  /-- None of the literals before is refused. -/
  resolvable : ∀ k, before.HasKey σ k → ¬ w.manager.Refuses s k
  /-- No ground rule is produced. -/
  rules : w'.rules = w.rules
  /-- The literals up to this one have been resolved, and nothing else. -/
  gathers : w.manager.Gathers s (Conjunction.HasKey (before ++ [l]) σ) w'.manager
  /-- The atoms before it that are neither resolved nor stored are lazy now. -/
  deferred : ∀ k, k ∈ w'.manager.lazy.keys ↔ k ∈ w.manager.lazy.keys ∨ before.HasKey σ k ∧
    w.manager.instance? k = none ∧ k.predicate.isStandard = true ∧ s.get? k = none
  /-- Nothing comes of standard atoms exactly if those before it had been resolved already. -/
  keepsStandard_iff : w.manager.KeepsStandard w'.manager ↔ ∀ k, before.HasKey σ k →
    k.predicate.isStandard = true → w.manager.instance? k ≠ none

/-- Grounding a row has stopped at a key that is refused. -/
structure StopsRow (s : Store) (σ : Valuation) (before : Conjunction) (k : GroundKey)
    (w w' : Workspace) : Prop where
  /-- The key is refused. -/
  refuses : w.manager.Refuses s k
  /-- No ground rule is produced. -/
  rules : w'.rules = w.rules
  /-- It is the key of the first literal that is refused; those before have been resolved. -/
  first : ∃ earlier refused later, before = earlier ++ refused :: later ∧ refused.HasKey σ k ∧
    (∀ k', Conjunction.HasKey earlier σ k' → ¬ w.manager.Refuses s k') ∧
    w.manager.Gathers s (Conjunction.HasKey earlier σ) w'.manager

/-- Let a row have constants of the declared types, and let a functional literal make the clause
true under it. The literals before the first such literal are resolved all the same when the row is
grounded. If none of them is refused, the row counts as no ground rule, and what they name is known
or lazy from then on. Otherwise the first one that is refused is an error. -/
theorem groundRow_resolves_up_to_deciding_literal (hw : w.manager.Untampered)
    (hrow : ∀ l ∈ r.clause, l.atom.predicate.Accepts (l.atom.instanceArgs σ))
    (hdecided : ∃ l ∈ r.clause, ¬ l.ComputesTrue σ) :
    ∃ before l after, r.clause = before ++ l :: after ∧
      (∀ l' ∈ before, l'.ComputesTrue σ) ∧ ¬ l.ComputesTrue σ ∧
      ((∃ w', (r.groundRow s (ResultList.assign r.vars (r.vars.map σ))).runOn w = (.ok 0, w') ∧
          DropsRow s σ before l w w') ∨
        ∃ k w', (r.groundRow s (ResultList.assign r.vars (r.vars.map σ))).runOn w =
            (.error (.lookup (.unknownAtom ⟨k, s.defaultValue, .lazy⟩)), w') ∧
          StopsRow s σ before k w w') := by
  obtain ⟨before, l, after, hclause, hfalse, hnotFalse⟩ := exists_first hdecided
  have hcomputed : ∀ l' ∈ before, l'.ComputesTrue σ := fun l' hl' => not_not.mp (hnotFalse l' hl')
  refine ⟨before, l, after, hclause, hcomputed, hfalse, ?_⟩
  -- Nothing has been assigned, so what is read is what is computed.
  have hreflects := Manager.evaluates_iff.mp hw.evaluates
  have hread : ∀ l' ∈ before, l'.ReadsTrue (fun _ => none) σ :=
    fun l' hl' => (Literal.readsTrue_iff fun _ _ => rfl).mpr (hcomputed l' hl')
  have hnotRead := mt (Literal.readsTrue_iff fun _ _ => rfl).mp hfalse
  by_cases hrefused : ∃ l' ∈ before, ∃ k, l'.HasKey σ k ∧ w.manager.Refuses s k
  · obtain ⟨earlier, refused, later, hbefore, ⟨k, hk, hrefuses⟩, hearlier⟩ :=
      exists_first hrefused
    have hnone : ∀ k', Conjunction.HasKey earlier σ k' → ¬ w.manager.Refuses s k' :=
      fun k' ⟨l', hl', hk'⟩ hrefuses' => hearlier l' hl' ⟨k', hk', hrefuses'⟩
    have hsplit : r.clause = earlier ++ refused :: (later ++ l :: after) := by
      rw [hclause, hbefore, List.append_assoc, List.cons_append]
    have hread' : ∀ l' ∈ earlier, l'.ReadsTrue (fun _ => none) σ :=
      fun l' hl' => hread l' (hbefore ▸ List.mem_append_left _ hl')
    obtain ⟨m, hrun, hgathers⟩ :=
      runOn_groundRow_of_refused hrow hsplit hread' hreflects hnone hk hrefuses
    exact .inr ⟨k, _, hrun, hrefuses, rfl, earlier, refused, later, hbefore, hk, hnone, hgathers⟩
  · have hnone : ∀ k, Conjunction.HasKey before σ k → ¬ w.manager.Refuses s k :=
      fun k ⟨l', hl', hk⟩ hrefuses => hrefused ⟨l', hl', k, hk, hrefuses⟩
    obtain ⟨m, hrun, hgathers⟩ :=
      runOn_groundRow_of_not_readsTrue hrow hclause hread hreflects hnone hnotRead
    -- The literal that decides is functional, so it adds no standard key.
    have hstandard : ∀ k, k.predicate.isStandard = true →
        (Conjunction.HasKey (before ++ [l]) σ k ↔ Conjunction.HasKey before σ k) := by
      intro k hk
      rw [Conjunction.hasKey_append, Conjunction.hasKey_singleton]
      exact or_iff_left fun hl => Literal.not_isStandard_of_hasKey hnotRead hl hk
    refine .inl ⟨_, hrun, hnone, rfl, hgathers, fun k => ?_, ?_⟩
    · rw [hgathers.mem_lazy_keys_iff]
      exact or_congr_right (and_congr_left fun ⟨_, hk, _⟩ => hstandard k hk)
    · rw [hgathers.keepsStandard_iff]
      exact forall_congr' fun k => ⟨fun h hk hs => h ((hstandard k hs).mpr hk) hs,
        fun h hk hs => h ((hstandard k hs).mp hk) hs⟩

/-- That somebody meets somebody. -/
def meetsAtom : Atom := ⟨.standard "Meets" [.integer, .integer], [.var ⟨"A"⟩, .var ⟨"B"⟩]⟩

/-- That the persons are the same. -/
def sameAtom : Atom := ⟨.ofBuiltin .equal .integer, [.var ⟨"A"⟩, .var ⟨"B"⟩]⟩

/-- Whoever meets somebody else knows that person. -/
def meeting : Formula :=
  .disjunction [.negation (.atom meetsAtom), .atom knowsAtom, .atom sameAtom]

/-- The rule of this formula. -/
def meetingRule : LogicalRule where
  name := "meeting"
  formula := meeting
  clause := [.positive meetsAtom, .negative knowsAtom, .negative sameAtom]
  weight := none

/-- That the first person meets itself. -/
def firstMeetsFirst : GroundKey :=
  ⟨.standard "Meets" [.integer, .integer], [.integer 1, .integer 1], rfl⟩

/-- That the first person knows itself. -/
def firstKnowsFirst : GroundKey :=
  ⟨.standard "Knows" [.integer, .integer], [.integer 1, .integer 1], rfl⟩

/-- A store in which the first person meets itself. -/
def meetingStore : Store :=
  (Store.empty ⟨[⟨0⟩], ⟨1⟩, ⟨2⟩⟩ 0.0).put firstMeetsFirst 1.0 ⟨0⟩

/-- That the first person knows itself is lazy after the row of this person has been dropped, as the
atom comes before the one that makes the clause true. -/
theorem meetingRule_leaves_lazy_atom :
    make "meeting" meeting none = .ok meetingRule ∧
      (Manager.fresh (.deferring 0.5)).Untampered ∧
      (∀ l ∈ meetingRule.clause,
        l.atom.predicate.Accepts (l.atom.instanceArgs fun _ => .integer 1)) ∧
      (∃ l ∈ meetingRule.clause, ¬ l.ComputesTrue fun _ => .integer 1) ∧
      ∃ w, (meetingRule.groundRow meetingStore
          (ResultList.assign meetingRule.vars (meetingRule.vars.map fun _ => .integer 1))).runOn
            ⟨.fresh (.deferring 0.5), []⟩ = (.ok 0, w) ∧
        w.rules = [] ∧ firstKnowsFirst ∈ w.manager.lazy.keys := by
  have hmake : make "meeting" meeting none = .ok meetingRule := rfl
  have hfresh : (Manager.fresh (.deferring 0.5)).Untampered :=
    .renew (.fresh (.deferring 0.5)) (.deferring 0.5)
  have hliterals : ∀ l ∈ meetingRule.clause,
      l = .positive meetsAtom ∨ l = .negative knowsAtom ∨ l = .negative sameAtom := by decide
  have haccepts : ∀ l ∈ meetingRule.clause,
      l.atom.predicate.Accepts (l.atom.instanceArgs fun _ => .integer 1) := by
    intro l hl
    rcases hliterals l hl with rfl | rfl | rfl <;> exact .cons rfl (.cons rfl .nil)
  have hsame : ¬ (Literal.negative sameAtom).ComputesTrue fun _ => .integer 1 := by
    intro htrue
    have hpositive : 0.0 < Builtin.value .equal [.integer 1, .integer 1] := by decide
    cases (htrue .equal rfl).mp hpositive
  have hdecided : ∃ l ∈ meetingRule.clause, ¬ l.ComputesTrue fun _ => .integer 1 :=
    ⟨.negative sameAtom, by decide, hsame⟩
  refine ⟨hmake, hfresh, haccepts, hdecided, ?_⟩
  obtain ⟨before, l, after, hclause, -, hfalse, hend⟩ :=
    groundRow_resolves_up_to_deciding_literal (s := meetingStore)
      (w := ⟨.fresh (.deferring 0.5), []⟩) hfresh haccepts hdecided
  rcases hend with ⟨w', hrun, hdrops⟩ | ⟨_, _, -, hstops⟩
  · refine ⟨w', hrun, hdrops.rules, ?_⟩
    refine (hdrops.deferred firstKnowsFirst).mpr (.inr ⟨?_, rfl, rfl, rfl⟩)
    -- Neither of the first two literals makes the clause true, so the second is before the one
    -- that does.
    refine ⟨.negative knowsAtom, ?_, rfl, rfl⟩
    have hstandard : ∀ a : Atom, a.predicate.kind = .standard → ∀ negated,
        Literal.ComputesTrue ⟨a, negated⟩ fun _ => .integer 1 := by
      intro a ha negated builtin hkind
      rw [ha] at hkind
      cases hkind
    rcases before with _ | ⟨a, _ | ⟨b, rest⟩⟩
    · obtain ⟨rfl, -⟩ := List.cons.inj hclause
      exact absurd (hstandard meetsAtom rfl false) hfalse
    · obtain ⟨rfl, -⟩ := List.cons.inj (List.cons.inj hclause).2
      exact absurd (hstandard knowsAtom rfl true) hfalse
    · obtain ⟨rfl, -⟩ := List.cons.inj (List.cons.inj hclause).2
      exact List.mem_cons_of_mem a List.mem_cons_self
  · cases hstops.refuses.policy

end LogicalRule

end RuleGrounding
