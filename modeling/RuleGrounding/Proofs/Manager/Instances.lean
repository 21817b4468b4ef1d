import RuleGrounding.Manager

/-!
# The instances of a manager

A manager files each instance under its key, in the lazy or in the known atoms but
never in both. Whatever a manager does, it goes on giving out the instances that
it has given out, and a known atom stays known. Only a strict manager refuses a key,
and only one of which it has no instance and the store knows nothing.
-/

namespace RuleGrounding

namespace AtomPool

@[simp] theorem size_modify (pool : AtomPool) (h : Handle) (f : AtomCell → AtomCell) :
    (pool.modify h f).cells.size = pool.cells.size := by
  rw [modify, Array.size_modify]

@[simp] theorem size_setState (pool : AtomPool) (h : Handle) (state : AtomState) :
    (pool.setState h state).cells.size = pool.cells.size :=
  size_modify ..

@[simp] theorem size_setValue (pool : AtomPool) (h : Handle) (value : Float) :
    (pool.setValue h value).cells.size = pool.cells.size :=
  size_modify ..

end AtomPool

namespace Manager

/-- The instance that a manager gives out for a key, if it has one. -/
def instance? (m : Manager) (k : GroundKey) : Option Handle :=
  (m.lazy.find? k).or (m.known.find? k)

/-- The manager gives out this instance for its key. -/
def Gives (m : Manager) (h : Handle) : Prop := m.instance? h.key = some h

/-- The instances of a manager are in order. -/
structure Sound (m : Manager) : Prop where
  /-- An instance is filed under its key. -/
  filed : ∀ k h, m.instance? k = some h → h.key = k
  /-- An instance has a cell. -/
  allocated : ∀ h, m.Gives h → h.serial < m.pool.cells.size
  /-- Different instances have different cells. -/
  separate : ∀ h h', m.Gives h → m.Gives h' → h.serial = h'.serial → h = h'
  /-- No key is both lazy and known. -/
  disjoint : ∀ k, k ∈ m.lazy.keys → k ∉ m.known.keys

/-- What a manager gives out and what it knows is kept by a later one. -/
structure Grows (m m' : Manager) : Prop where
  /-- Instances stay. -/
  gives : ∀ h, m.Gives h → m'.Gives h
  /-- Known atoms stay known, with their instances. -/
  known : ∀ k h, m.known.find? k = some h → m'.known.find? k = some h
  /-- What is not stored is dealt with in the same way. -/
  policy : m'.policy = m.policy

theorem Grows.refl (m : Manager) : m.Grows m := ⟨fun _ h => h, fun _ _ h => h, rfl⟩

theorem Grows.trans {m₁ m₂ m₃ : Manager} (h : m₁.Grows m₂) (h' : m₂.Grows m₃) : m₁.Grows m₃ :=
  ⟨fun a ha => h'.gives a (h.gives a ha), fun k a ha => h'.known k a (h.known k a ha),
    h'.policy.trans h.policy⟩

/-- A manager that has resolved nothing is in order, whatever the pool. -/
theorem sound_renew (m : Manager) (policy : Policy) : (m.renew policy).Sound where
  filed k h hk := by cases hk
  allocated h hh := by cases hh
  separate h h' hh := by cases hh
  disjoint k hk := by cases hk

theorem sound_fresh (policy : Policy) : (fresh policy).Sound :=
  sound_renew (fresh policy) policy

section Lookup

variable {m : Manager} {k : GroundKey} {h : Handle}

theorem instance?_of_lazy (hk : m.lazy.find? k = some h) : m.instance? k = some h := by
  rw [instance?, hk, Option.some_or]

theorem instance?_eq_none_iff :
    m.instance? k = none ↔ m.lazy.find? k = none ∧ m.known.find? k = none :=
  Option.or_eq_none_iff

theorem Sound.find?_lazy_of_known (hm : m.Sound) (hk : m.known.find? k = some h) :
    m.lazy.find? k = none := by
  rw [FiniteMap.find?_eq_none_iff]
  exact fun hl => hm.disjoint k hl (FiniteMap.mem_keys_iff.mpr ⟨h, hk⟩)

theorem Sound.find?_known_of_lazy (hm : m.Sound) (hk : m.lazy.find? k = some h) :
    m.known.find? k = none := by
  rw [FiniteMap.find?_eq_none_iff]
  exact hm.disjoint k (FiniteMap.mem_keys_iff.mpr ⟨h, hk⟩)

theorem Sound.instance?_of_known (hm : m.Sound) (hk : m.known.find? k = some h) :
    m.instance? k = some h := by
  rw [instance?, hm.find?_lazy_of_known hk, Option.none_or, hk]

/-- An instance that is found is given out. -/
theorem Sound.gives_of_instance? (hm : m.Sound) (hk : m.instance? k = some h) : m.Gives h := by
  rw [Gives, hm.filed k h hk, hk]

theorem Sound.gives_of_lazy (hm : m.Sound) (hk : m.lazy.find? k = some h) : m.Gives h :=
  hm.gives_of_instance? (instance?_of_lazy hk)

theorem Sound.gives_of_known (hm : m.Sound) (hk : m.known.find? k = some h) : m.Gives h :=
  hm.gives_of_instance? (hm.instance?_of_known hk)

/-- The lazy atoms are those filed under their own keys. -/
theorem Sound.mem_lazy_values_iff (hm : m.Sound) :
    h ∈ m.lazy.values ↔ m.lazy.find? h.key = some h := by
  rw [FiniteMap.mem_values_iff]
  refine ⟨fun ⟨k, hk⟩ => ?_, fun hh => ⟨h.key, hh⟩⟩
  rwa [hm.filed k h (instance?_of_lazy hk)]

/-- No lazy atom is listed twice. -/
theorem Sound.nodup_lazy_values (hm : m.Sound) : m.lazy.values.Nodup := by
  have hkeys : m.lazy.values.map Handle.key = m.lazy.keys := by
    rw [FiniteMap.values, FiniteMap.keys, List.map_map]
    refine List.map_congr_left fun e he => ?_
    exact hm.filed e.1 e.2 (instance?_of_lazy (FiniteMap.find?_eq_some_iff.mpr he))
  have hnodup : (m.lazy.values.map Handle.key).Nodup := hkeys ▸ m.lazy.nodup
  exact List.Pairwise.of_map Handle.key (fun _ _ hne he => hne (congrArg _ he)) hnodup

/-- For one key a manager gives out one instance. -/
theorem Gives.eq_of_key_eq {h' : Handle} (hh : m.Gives h) (hh' : m.Gives h')
    (hkey : h.key = h'.key) : h = h' := by
  rw [Gives, hkey, hh'] at hh
  exact (Option.some.inj hh).symm

/-- An atom that was lazy before and is lazy later has been lazy all the time. -/
theorem Grows.mem_lazy_keys {m₁ m' : Manager} (hm : m.Sound) (h : m.Grows m₁) (h' : m₁.Grows m')
    (hm' : m'.Sound) (hk : k ∈ m.lazy.keys) (hk' : k ∈ m'.lazy.keys) : k ∈ m₁.lazy.keys := by
  obtain ⟨a, ha⟩ := FiniteMap.mem_keys_iff.mp hk
  have hgives := h.gives a (hm.gives_of_lazy ha)
  rw [Gives, hm.filed k a (instance?_of_lazy ha), instance?, Option.or_eq_some_iff] at hgives
  rcases hgives with hlazy | ⟨-, hknown⟩
  · exact FiniteMap.mem_keys_iff.mpr ⟨a, hlazy⟩
  · exact absurd (FiniteMap.mem_keys_iff.mpr ⟨a, h'.known k a hknown⟩) (hm'.disjoint k hk')

end Lookup

section PoolOnly

variable {m m' : Manager}

theorem gives_congr (hi : ∀ k, m'.instance? k = m.instance? k) (h : Handle) :
    m'.Gives h ↔ m.Gives h := by
  rw [Gives, Gives, hi]

/-- Order is kept when the instances and the number of cells stay. -/
theorem Sound.of_instance?_eq (hm : m.Sound) (hi : ∀ k, m'.instance? k = m.instance? k)
    (hsize : m'.pool.cells.size = m.pool.cells.size)
    (hdisjoint : ∀ k, k ∈ m'.lazy.keys → k ∉ m'.known.keys) : m'.Sound where
  filed k h hk := hm.filed k h (by rw [← hi, hk])
  allocated h hh := hsize ▸ hm.allocated h ((gives_congr hi h).mp hh)
  separate h h' hh hh' := hm.separate h h' ((gives_congr hi h).mp hh) ((gives_congr hi h').mp hh')
  disjoint := hdisjoint

/-- Order is kept when only values and states of instances change. -/
theorem Sound.of_maps_eq (hm : m.Sound) (hknown : m'.known = m.known) (hlazy : m'.lazy = m.lazy)
    (hsize : m'.pool.cells.size = m.pool.cells.size) : m'.Sound :=
  hm.of_instance?_eq (fun k => by rw [instance?, instance?, hknown, hlazy]) hsize
    (by rw [hknown, hlazy]; exact hm.disjoint)

theorem Grows.of_maps_eq (hknown : m'.known = m.known) (hlazy : m'.lazy = m.lazy)
    (hpolicy : m'.policy = m.policy) : m.Grows m' :=
  ⟨fun h hh => (gives_congr (fun k => by rw [instance?, instance?, hknown, hlazy]) h).mpr hh,
    fun k h hk => by rw [hknown, hk], hpolicy⟩

theorem sound_setValue (hm : m.Sound) (h : Handle) (value : Float) : (m.setValue h value).Sound :=
  hm.of_maps_eq rfl rfl (AtomPool.size_setValue ..)

theorem grows_setValue (m : Manager) (h : Handle) (value : Float) :
    m.Grows (m.setValue h value) :=
  .of_maps_eq rfl rfl rfl

/-- Say of one instance that it lives in another partition, if it is of the predicate and lives in
the one. -/
def promoteOne (p : Predicate) (source goal : PartitionId) (pool : AtomPool) (h : Handle) :
    AtomPool :=
  if h.key.predicate = p ∧ pool.state h = .unobserved source then
    pool.setState h (.unobserved goal)
  else pool

theorem pool_promote (m : Manager) (p : Predicate) (source goal : PartitionId) :
    (m.promote p source goal).pool = m.known.values.foldl (promoteOne p source goal) m.pool := rfl

theorem size_foldl_promoteOne (hs : List Handle) (pool : AtomPool) (p : Predicate)
    (source goal : PartitionId) :
    (hs.foldl (promoteOne p source goal) pool).cells.size = pool.cells.size := by
  induction hs generalizing pool with
  | nil => rfl
  | cons h hs ih =>
    rw [List.foldl_cons, ih, promoteOne]
    split
    · exact AtomPool.size_setState ..
    · rfl

theorem sound_promote (hm : m.Sound) (p : Predicate) (source goal : PartitionId) :
    (m.promote p source goal).Sound :=
  hm.of_maps_eq rfl rfl (size_foldl_promoteOne ..)

theorem grows_promote (m : Manager) (p : Predicate) (source goal : PartitionId) :
    m.Grows (m.promote p source goal) :=
  .of_maps_eq rfl rfl rfl

end PoolOnly

section Adoption

variable {m : Manager}

/-- Take one activated atom over into the resolved ones. -/
def adoptOne (state : AtomState) (m : Manager) (h : Handle) : Manager :=
  { m with
    pool := m.pool.setState h state
    known := m.known.insertNew h.key h
    lazy := m.lazy.erase h.key }

theorem adopt_eq_foldl (m : Manager) (atoms : List Handle) (state : AtomState) :
    m.adopt atoms state = atoms.foldl (adoptOne state) m := rfl

/-- After an adoption the key is known, under the instance that it had. -/
theorem find?_known_adoptOne (hm : m.Sound) {h : Handle} (hh : m.Gives h) (state : AtomState)
    (k : GroundKey) : (adoptOne state m h).known.find? k =
      if k = h.key then some h else m.known.find? k := by
  change (m.known.insertNew h.key h).find? k = _
  rw [FiniteMap.find?_insertNew]
  split
  · cases hk : m.known.find? h.key with
    | none => rfl
    | some h' =>
      rw [Option.getD_some]
      have hh' := hm.instance?_of_known hk
      rw [hh] at hh'
      exact hh'.symm
  · rfl

theorem find?_lazy_adoptOne (m : Manager) (h : Handle) (state : AtomState) (k : GroundKey) :
    (adoptOne state m h).lazy.find? k = if k = h.key then none else m.lazy.find? k :=
  FiniteMap.find?_erase ..

/-- Adopting an instance that is given out changes no instance: it only moves to the known ones. -/
theorem instance?_adoptOne (hm : m.Sound) {h : Handle} (hh : m.Gives h) (state : AtomState)
    (k : GroundKey) : (adoptOne state m h).instance? k = m.instance? k := by
  rw [instance?, find?_known_adoptOne hm hh, find?_lazy_adoptOne]
  split
  · rename_i he
    rw [he, Option.none_or, hh]
  · rfl

theorem adoptOne_sound_grows (hm : m.Sound) {h : Handle} (hh : m.Gives h) (state : AtomState) :
    (adoptOne state m h).Sound ∧ m.Grows (adoptOne state m h) := by
  have hi := instance?_adoptOne hm hh state
  refine ⟨hm.of_instance?_eq hi (AtomPool.size_setState ..) fun k hk hk' => ?_,
    ⟨fun a ha => (gives_congr hi a).mpr ha, fun k a ha => ?_, rfl⟩⟩
  · obtain ⟨a, ha⟩ := FiniteMap.mem_keys_iff.mp hk
    obtain ⟨b, hb⟩ := FiniteMap.mem_keys_iff.mp hk'
    rw [find?_lazy_adoptOne] at ha
    rw [find?_known_adoptOne hm hh] at hb
    split at ha
    · cases ha
    · rename_i hne
      rw [if_neg hne] at hb
      exact hm.disjoint k (FiniteMap.mem_keys_iff.mpr ⟨a, ha⟩) (FiniteMap.mem_keys_iff.mpr ⟨b, hb⟩)
  · rw [find?_known_adoptOne hm hh]
    split
    · rename_i he
      have hk := hm.instance?_of_known ha
      rw [he, hh] at hk
      exact hk
    · exact ha

/-- Adopting instances that are given out keeps the order and all instances. -/
theorem adopt_sound_grows (hm : m.Sound) {atoms : List Handle} (hatoms : ∀ h ∈ atoms, m.Gives h)
    (state : AtomState) : (m.adopt atoms state).Sound ∧ m.Grows (m.adopt atoms state) := by
  rw [adopt_eq_foldl]
  induction atoms generalizing m with
  | nil => exact ⟨hm, .refl m⟩
  | cons h hs ih =>
    obtain ⟨hsound, hgrows⟩ := adoptOne_sound_grows hm (hatoms h List.mem_cons_self) state
    obtain ⟨hsound', hgrows'⟩ :=
      ih hsound fun a ha => hgrows.gives a (hatoms a (List.mem_cons_of_mem h ha))
    exact ⟨hsound', hgrows.trans hgrows'⟩

/-- Nor does adopting several of them. -/
theorem instance?_adopt (hm : m.Sound) {atoms : List Handle} (hatoms : ∀ h ∈ atoms, m.Gives h)
    (state : AtomState) (k : GroundKey) : (m.adopt atoms state).instance? k = m.instance? k := by
  rw [adopt_eq_foldl]
  induction atoms generalizing m with
  | nil => rfl
  | cons h hs ih =>
    have hh := hatoms h List.mem_cons_self
    obtain ⟨hsound, hgrows⟩ := adoptOne_sound_grows hm hh state
    have hlater := ih hsound fun a ha => hgrows.gives a (hatoms a (List.mem_cons_of_mem h ha))
    exact hlater.trans (instance?_adoptOne hm hh state k)

end Adoption

section NewInstance

variable {m m' : Manager} {atom : GroundAtom}

/-- A new instance under a key that has none keeps the others and the order. -/
private theorem sound_and_grows_of_new (hm : m.Sound) (hnone : m.instance? atom.key = none)
    (hsize : m'.pool.cells.size = m.pool.cells.size + 1)
    (hi : ∀ k, m'.instance? k =
      if k = atom.key then some ⟨atom.key, m.pool.cells.size⟩ else m.instance? k)
    (hknown : ∀ k h, m.known.find? k = some h → m'.known.find? k = some h)
    (hdisjoint : ∀ k, k ∈ m'.lazy.keys → k ∉ m'.known.keys) (hpolicy : m'.policy = m.policy) :
    m'.Sound ∧ m.Grows m' := by
  have hgives : ∀ h, m'.Gives h → h = ⟨atom.key, m.pool.cells.size⟩ ∨ m.Gives h := by
    intro h hh
    rw [Gives, hi] at hh
    split at hh
    · exact .inl (Option.some.inj hh).symm
    · exact .inr hh
  refine ⟨⟨?_, ?_, ?_, hdisjoint⟩, ⟨?_, hknown, hpolicy⟩⟩
  · intro k h hk
    rw [hi] at hk
    split at hk
    · rename_i he
      rw [he, ← Option.some.inj hk]
    · exact hm.filed k h hk
  · intro h hh
    rcases hgives h hh with rfl | hold
    · rw [hsize]
      exact Nat.lt_succ_self _
    · rw [hsize]
      exact Nat.lt_succ_of_lt (hm.allocated h hold)
  · intro h h' hh hh' hserial
    rcases hgives h hh with rfl | hold
    · rcases hgives h' hh' with rfl | hold'
      · rfl
      · exact absurd (hm.allocated h' hold') (by simp [← hserial])
    · rcases hgives h' hh' with rfl | hold'
      · exact absurd (hm.allocated h hold) (by simp [hserial])
      · exact hm.separate h h' hold hold' hserial
  · intro h hh
    rw [Gives, hi, if_neg]
    · exact hh
    · intro he
      rw [Gives, he, hnone] at hh
      cases hh

@[simp] theorem size_allocate (pool : AtomPool) (atom : GroundAtom) :
    (pool.allocate atom).2.cells.size = pool.cells.size + 1 :=
  Array.size_push _

/-- A new resolved atom is found under its key. -/
theorem instance?_learn (hnone : m.instance? atom.key = none)
    (k : GroundKey) : (m.learn atom).2.instance? k =
      if k = atom.key then some ⟨atom.key, m.pool.cells.size⟩ else m.instance? k := by
  change (m.lazy.find? k).or ((m.known.insert atom.key _).find? k) = _
  rw [FiniteMap.find?_insert]
  split
  · rename_i he
    rw [he, (instance?_eq_none_iff.mp hnone).1]
    rfl
  · rfl

/-- A new lazy atom is found under its key. -/
theorem instance?_postpone (atom : GroundAtom) (k : GroundKey) :
    (m.postpone atom).2.instance? k =
      if k = atom.key then some ⟨atom.key, m.pool.cells.size⟩ else m.instance? k := by
  change ((m.lazy.insert atom.key _).find? k).or (m.known.find? k) = _
  rw [FiniteMap.find?_insert]
  split <;> rfl

theorem learn_sound_grows (hm : m.Sound) (hnone : m.instance? atom.key = none) :
    (m.learn atom).2.Sound ∧ m.Grows (m.learn atom).2 := by
  obtain ⟨hlazy, hknown⟩ := instance?_eq_none_iff.mp hnone
  refine sound_and_grows_of_new hm hnone (size_allocate ..) (instance?_learn hnone)
    (fun k h hk => ?_) (fun k hk => ?_) rfl
  · change (m.known.insert atom.key _).find? k = _
    rw [FiniteMap.find?_insert, if_neg, hk]
    rintro rfl
    rw [hknown] at hk
    cases hk
  · change k ∉ (m.known.insert atom.key _).keys
    rw [FiniteMap.mem_keys_insert, not_or]
    refine ⟨?_, hm.disjoint k hk⟩
    rintro rfl
    exact FiniteMap.find?_eq_none_iff.mp hlazy hk

theorem postpone_sound_grows (hm : m.Sound) (hnone : m.instance? atom.key = none) :
    (m.postpone atom).2.Sound ∧ m.Grows (m.postpone atom).2 := by
  obtain ⟨-, hknown⟩ := instance?_eq_none_iff.mp hnone
  refine sound_and_grows_of_new hm hnone (size_allocate ..) (instance?_postpone atom)
    (fun _ _ hk => hk) (fun k hk => ?_) rfl
  rcases FiniteMap.mem_keys_insert.mp hk with rfl | hk
  · exact FiniteMap.find?_eq_none_iff.mp hknown
  · exact hm.disjoint k hk

end NewInstance

end Manager

namespace Store

variable {s : Store} {k : GroundKey} {atom : GroundAtom}

/-- What a store knows of a key is about that key. -/
theorem key_of_look (h : s.look k = .present atom ∨ s.look k = .absent atom) : atom.key = k := by
  rw [look] at h
  split at h
  · rcases h with h | h <;> cases h
    rfl
  · split at h <;> rcases h with h | h <;> cases h <;> rfl

/-- What is absent is not stored, and is deferred with the default value. -/
theorem eq_of_look_eq_absent (h : s.look k = .absent atom) :
    s.get? k = none ∧ atom = ⟨k, s.defaultValue, .lazy⟩ := by
  rw [look] at h
  split at h
  · cases h
  · split at h
    · cases h
    · rename_i hnone
      cases h
      exact ⟨hnone, rfl⟩

/-- What is not stored and may be deferred is of a standard predicate. -/
theorem isStandard_of_look_eq_absent (h : s.look k = .absent atom) :
    k.predicate.isStandard = true := by
  rw [look] at h
  split at h
  · cases h
  · rename_i hk
    exact decide_eq_true hk

/-- A standard atom that is not stored is absent. -/
theorem look_of_get?_eq_none (hstandard : k.predicate.isStandard = true)
    (hnone : s.get? k = none) : s.look k = .absent ⟨k, s.defaultValue, .lazy⟩ := by
  have hkind : k.predicate.kind = .standard := of_decide_eq_true hstandard
  rw [look, hkind, hnone]

end Store

/-- A manager refuses a key if it is strict, and the atom is neither resolved, nor stored, nor
computed. -/
structure Manager.Refuses (m : Manager) (s : Store) (k : GroundKey) : Prop where
  /-- What is not stored is refused. -/
  policy : m.policy = .strict
  /-- The key has no instance. -/
  unresolved : m.instance? k = none
  /-- The atom is not computed. -/
  standard : k.predicate.isStandard = true
  /-- The atom is not stored. -/
  stored : s.get? k = none

namespace Manager

variable {m m' : Manager} {s : Store} {k : GroundKey} {h : Handle}

/-- The three ways to resolve a key: by an instance that is there, by one made after what is stored
or computed, and by one that is deferred. -/
theorem resolveKey_cases (hr : m.resolveKey s k = .ok (h, m')) :
    (m' = m ∧ m.instance? k = some h) ∨
      (m.instance? k = none ∧ ∃ atom, s.look k = .present atom ∧ m.learn atom = (h, m')) ∨
      (m.instance? k = none ∧ ∃ atom threshold, s.look k = .absent atom ∧
        m.policy = .deferring threshold ∧ m.postpone atom = (h, m')) := by
  rw [resolveKey] at hr
  cases hl : m.lazy.find? k with
  | some a =>
    simp only [hl, Except.ok.injEq, Prod.mk.injEq] at hr
    exact .inl ⟨hr.2.symm, hr.1 ▸ instance?_of_lazy hl⟩
  | none =>
    cases hkn : m.known.find? k with
    | some a =>
      simp only [hl, hkn, Except.ok.injEq, Prod.mk.injEq] at hr
      exact .inl ⟨hr.2.symm, by rw [instance?, hl, hkn, hr.1, Option.none_or]⟩
    | none =>
      have hnone := instance?_eq_none_iff.mpr ⟨hl, hkn⟩
      simp only [hl, hkn] at hr
      split at hr
      · exact .inr (.inl ⟨hnone, _, ‹_›, Except.ok.inj hr⟩)
      · split at hr
        · cases hr
        · exact .inr (.inr ⟨hnone, _, _, ‹_›, ‹_›, Except.ok.inj hr⟩)

/-- Resolving a key gives out an instance of that key and keeps the others. -/
theorem resolveKey_sound_grows (hm : m.Sound) (hr : m.resolveKey s k = .ok (h, m')) :
    m'.Sound ∧ m.Grows m' ∧ h.key = k ∧ m'.Gives h := by
  rcases resolveKey_cases hr with ⟨rfl, hi⟩ | ⟨hnone, atom, hlook, hlearn⟩ |
    ⟨hnone, atom, _, hlook, -, hpost⟩
  · exact ⟨hm, .refl m', hm.filed k h hi, hm.gives_of_instance? hi⟩
  · have hkey := Store.key_of_look (.inl hlook)
    obtain ⟨hs, hg⟩ := learn_sound_grows hm (hkey ▸ hnone)
    obtain ⟨rfl, rfl⟩ := Prod.mk.inj hlearn
    refine ⟨hs, hg, hkey, hs.gives_of_known (k := atom.key) ?_⟩
    change (m.known.insert atom.key _).find? atom.key = _
    rw [FiniteMap.find?_insert, if_pos rfl]
  · have hkey := Store.key_of_look (.inr hlook)
    obtain ⟨hs, hg⟩ := postpone_sound_grows hm (hkey ▸ hnone)
    obtain ⟨rfl, rfl⟩ := Prod.mk.inj hpost
    refine ⟨hs, hg, hkey, hs.gives_of_lazy (k := atom.key) ?_⟩
    change (m.lazy.insert atom.key _).find? atom.key = _
    rw [FiniteMap.find?_insert, if_pos rfl]

/-- What is refused is an error that names the atom as it would have been deferred. -/
theorem Refuses.resolveKey (h : m.Refuses s k) :
    m.resolveKey s k = .error (.unknownAtom ⟨k, s.defaultValue, .lazy⟩) := by
  obtain ⟨hlazy, hknown⟩ := instance?_eq_none_iff.mp h.unresolved
  rw [Manager.resolveKey, hlazy, hknown, Store.look_of_get?_eq_none h.standard h.stored, h.policy]

/-- All other keys are resolved. -/
theorem exists_resolveKey (h : ¬ m.Refuses s k) : ∃ a m', m.resolveKey s k = .ok (a, m') := by
  rw [Manager.resolveKey]
  cases hlazy : m.lazy.find? k with
  | some a => exact ⟨a, m, rfl⟩
  | none =>
    cases hknown : m.known.find? k with
    | some a => exact ⟨a, m, rfl⟩
    | none =>
      cases hlook : s.look k with
      | present atom => exact ⟨_, _, rfl⟩
      | absent atom =>
        cases hpolicy : m.policy with
        | deferring threshold => exact ⟨_, _, rfl⟩
        | strict =>
          exact absurd ⟨hpolicy, instance?_eq_none_iff.mpr ⟨hlazy, hknown⟩,
            Store.isStandard_of_look_eq_absent hlook, (Store.eq_of_look_eq_absent hlook).1⟩ h

/-- A deferring manager refuses nothing. -/
theorem not_refuses_of_deferring {threshold : Float} (h : m.policy = .deferring threshold) :
    ¬ m.Refuses s k := by
  intro hrefuses
  have hstrict := hrefuses.policy
  rw [h] at hstrict
  cases hstrict

/-- Resolving builds the key first. -/
theorem resolve_eq_ok_iff {p : Predicate} {args : List Constant} :
    m.resolve s p args = .ok (h, m') ↔
      ∃ k, GroundKey.make p args = .ok k ∧ m.resolveKey s k = .ok (h, m') := by
  rw [resolve]
  split <;> simp_all

/-- Resolving gives out an instance and keeps the others. -/
theorem resolve_sound_grows {p : Predicate} {args : List Constant} (hm : m.Sound)
    (hr : m.resolve s p args = .ok (h, m')) : m'.Sound ∧ m.Grows m' ∧ m'.Gives h := by
  obtain ⟨k, -, hk⟩ := resolve_eq_ok_iff.mp hr
  obtain ⟨hs, hg, -, hh⟩ := resolveKey_sound_grows hm hk
  exact ⟨hs, hg, hh⟩

end Manager

end RuleGrounding
