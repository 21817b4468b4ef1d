import RuleGrounding.Proofs.Manager.Instances

/-!
# What happens to the instances of a manager

Resolving adds instances and leaves those that are there as they are. Adopting and
promoting add none: the one files instances with the known atoms, and both say where
these live. No value changes in any of this.
-/

namespace RuleGrounding

namespace AtomPool

/-- Saying where an instance lives changes no value. -/
@[simp] theorem value_setState (pool : AtomPool) (h : Handle) (state : AtomState) (h' : Handle) :
    (pool.setState h state).value h' = pool.value h' := by
  simp only [value, cell, setState, modify, Array.getElem?_modify]
  split
  · cases pool.cells[h'.serial]? <;> rfl
  · rfl

/-- Saying where one instance lives says nothing about others. -/
theorem state_setState (pool : AtomPool) (h : Handle) (state : AtomState) (a : Handle) :
    (pool.setState h state).state a =
      if h.serial = a.serial ∧ h.serial < pool.cells.size then state else pool.state a := by
  simp only [AtomPool.state, cell, setState, modify, Array.getElem?_modify]
  by_cases hserial : h.serial = a.serial
  · rw [← hserial]
    by_cases hlt : h.serial < pool.cells.size
    · simp [hlt]
    · simp [hlt]
  · simp [hserial]

/-- An instance that lives in a partition has a cell. -/
theorem lt_size_of_state {pool : AtomPool} {h : Handle} {p : PartitionId}
    (hstate : pool.state h = .unobserved p) : h.serial < pool.cells.size := by
  refine Nat.lt_of_not_le fun hle => ?_
  rw [AtomPool.state, cell, Array.getElem?_eq_none hle] at hstate
  cases hstate

/-- An instance with the same value in the same place is seen as before. -/
theorem view_congr {pool pool' : AtomPool} {h : Handle} (hvalue : pool'.value h = pool.value h)
    (hstate : pool'.state h = pool.state h) : pool'.view h = pool.view h := by
  rw [view, view, hvalue, hstate]

/-- Handles of one cell live in one place. -/
theorem state_congr {pool : AtomPool} {h a : Handle} (hserial : h.serial = a.serial) :
    pool.state h = pool.state a := by
  rw [AtomPool.state, AtomPool.state, cell, cell, hserial]

end AtomPool

/-- An atom stays where it lives, or moves on from one partition to another. -/
def AtomState.MovesOn (source goal : PartitionId) (before later : AtomState) : Prop :=
  later = before ∨ before = .unobserved source ∧ later = .unobserved goal

theorem AtomState.MovesOn.trans {source goal : PartitionId} {a b c : AtomState}
    (h : a.MovesOn source goal b) (h' : b.MovesOn source goal c) : a.MovesOn source goal c := by
  rcases h with rfl | ⟨rfl, rfl⟩
  · exact h'
  · exact .inr ⟨rfl, h'.elim id And.right⟩

/-- From a partition to itself nothing moves. -/
theorem AtomState.MovesOn.eq {p : PartitionId} {a b : AtomState} (h : a.MovesOn p p b) :
    b = a := by
  rcases h with hsame | ⟨ha, hb⟩
  · exact hsame
  · rw [ha, hb]

namespace Store

variable {s s' : Store} {k : GroundKey}

/-- Stores that agree on a key know the same of it. -/
theorem look_congr (hlayout : s'.layout = s.layout) (hdefault : s'.defaultValue = s.defaultValue)
    (hrow : s'.rows.find? k = s.rows.find? k) : s'.look k = s.look k := by
  rw [look, look, get?, get?, hlayout, hdefault, hrow]

end Store

namespace Manager

section Resolving

/-- A manager that has resolved keys over a store: what another had it still has, unchanged, and
what it has besides is as the store knows it. -/
structure Extends (s : Store) (m m' : Manager) : Prop where
  /-- What is not stored is dealt with in the same way. -/
  policy : m'.policy = m.policy
  /-- No cell is given back. -/
  size : m.pool.cells.size ≤ m'.pool.cells.size
  /-- Instances stay as they were. -/
  cells : ∀ h, h.serial < m.pool.cells.size → m'.pool.cell h = m.pool.cell h
  /-- Lazy atoms stay lazy. -/
  lazy : ∀ k h, m.lazy.find? k = some h → m'.lazy.find? k = some h
  /-- Known atoms stay known. -/
  known : ∀ k h, m.known.find? k = some h → m'.known.find? k = some h
  /-- New lazy atoms are absent from the store. -/
  deferred : ∀ k h, m'.lazy.find? k = some h → m.lazy.find? k = some h ∨
    m.instance? k = none ∧ h.serial < m'.pool.cells.size ∧ s.look k = .absent (m'.view h)
  /-- New known atoms are stored or computed. -/
  learnt : ∀ k h, m'.known.find? k = some h → m.known.find? k = some h ∨
    m.instance? k = none ∧ h.serial < m'.pool.cells.size ∧ s.look k = .present (m'.view h)

variable {s : Store} {m m₁ m' : Manager} {k : GroundKey} {atom : GroundAtom}

theorem Extends.refl (s : Store) (m : Manager) : m.Extends s m :=
  ⟨rfl, Nat.le_refl _, fun _ _ => rfl, fun _ _ h => h, fun _ _ h => h, fun _ _ h => .inl h,
    fun _ _ h => .inl h⟩

/-- An instance with a cell is seen as before. -/
theorem Extends.view (h : m.Extends s m') {a : Handle} (ha : a.serial < m.pool.cells.size) :
    m'.view a = m.view a := by
  have hcell := h.cells a ha
  exact AtomPool.view_congr (congrArg AtomCell.value hcell) (congrArg AtomCell.state hcell)

theorem Extends.value (h : m.Extends s m') {a : Handle} (ha : a.serial < m.pool.cells.size) :
    m'.pool.value a = m.pool.value a :=
  congrArg GroundAtom.value (h.view ha)

theorem Extends.state (h : m.Extends s m') {a : Handle} (ha : a.serial < m.pool.cells.size) :
    m'.pool.state a = m.pool.state a :=
  congrArg GroundAtom.state (h.view ha)

/-- What has no instance later had none before. -/
theorem Extends.instance?_eq_none (h : m.Extends s m') (hk : m'.instance? k = none) :
    m.instance? k = none := by
  rw [instance?_eq_none_iff] at hk ⊢
  constructor
  · cases hl : m.lazy.find? k with
    | none => rfl
    | some a => exact absurd (h.lazy k a hl) (by simp [hk.1])
  · cases hl : m.known.find? k with
    | none => rfl
    | some a => exact absurd (h.known k a hl) (by simp [hk.2])

theorem Extends.trans (h : m.Extends s m₁) (h' : m₁.Extends s m') : m.Extends s m' where
  policy := h'.policy.trans h.policy
  size := Nat.le_trans h.size h'.size
  cells a ha := (h'.cells a (Nat.lt_of_lt_of_le ha h.size)).trans (h.cells a ha)
  lazy k a ha := h'.lazy k a (h.lazy k a ha)
  known k a ha := h'.known k a (h.known k a ha)
  deferred k a ha := by
    rcases h'.deferred k a ha with ha | ⟨hnone, hnew⟩
    · refine (h.deferred k a ha).imp_right fun ⟨hnone, hlt, hlook⟩ => ?_
      exact ⟨hnone, Nat.lt_of_lt_of_le hlt h'.size, by rw [h'.view hlt, hlook]⟩
    · exact .inr ⟨h.instance?_eq_none hnone, hnew⟩
  learnt k a ha := by
    rcases h'.learnt k a ha with ha | ⟨hnone, hnew⟩
    · refine (h.learnt k a ha).imp_right fun ⟨hnone, hlt, hlook⟩ => ?_
      exact ⟨hnone, Nat.lt_of_lt_of_le hlt h'.size, by rw [h'.view hlt, hlook]⟩
    · exact .inr ⟨h.instance?_eq_none hnone, hnew⟩

/-- A new instance has a cell. -/
theorem lt_size_allocate (pool : AtomPool) (atom : GroundAtom) :
    (pool.allocate atom).1.serial < (pool.allocate atom).2.cells.size := by
  rw [size_allocate]
  exact Nat.lt_succ_self _

/-- A new key in a map of instances leaves what the map has. -/
private theorem find?_insert_of_none {map : FiniteMap GroundKey Handle} {h : Handle}
    (hnone : map.find? atom.key = none) (k : GroundKey) (a : Handle) (ha : map.find? k = some a) :
    (map.insert atom.key h).find? k = some a := by
  rw [FiniteMap.find?_insert, if_neg, ha]
  rintro rfl
  rw [hnone] at ha
  cases ha

theorem extends_learn (hnone : m.instance? atom.key = none)
    (hlook : s.look atom.key = .present atom) : m.Extends s (m.learn atom).2 where
  policy := rfl
  size := Nat.le_of_lt (lt_size_allocate m.pool atom)
  cells a ha := AtomPool.cell_allocate atom ha
  lazy _ _ ha := ha
  known := find?_insert_of_none (instance?_eq_none_iff.mp hnone).2
  deferred _ _ ha := .inl ha
  learnt k a ha := by
    change (m.known.insert atom.key _).find? k = some a at ha
    rw [FiniteMap.find?_insert] at ha
    split at ha
    · rename_i hk
      rw [hk, ← Option.some.inj ha]
      exact .inr ⟨hnone, lt_size_allocate m.pool atom,
        hlook.trans (congrArg _ (AtomPool.view_allocate m.pool atom).symm)⟩
    · exact .inl ha

theorem extends_postpone (hnone : m.instance? atom.key = none)
    (hlook : s.look atom.key = .absent atom) : m.Extends s (m.postpone atom).2 where
  policy := rfl
  size := Nat.le_of_lt (lt_size_allocate m.pool atom)
  cells a ha := AtomPool.cell_allocate atom ha
  lazy := find?_insert_of_none (instance?_eq_none_iff.mp hnone).1
  known _ _ ha := ha
  deferred k a ha := by
    change (m.lazy.insert atom.key _).find? k = some a at ha
    rw [FiniteMap.find?_insert] at ha
    split at ha
    · rename_i hk
      rw [hk, ← Option.some.inj ha]
      exact .inr ⟨hnone, lt_size_allocate m.pool atom,
        hlook.trans (congrArg _ (AtomPool.view_allocate m.pool atom).symm)⟩
    · exact .inl ha
  learnt _ _ ha := .inl ha

/-- Resolving a key adds at most its instance. -/
theorem extends_of_resolveKey {h : Handle} (hr : m.resolveKey s k = .ok (h, m')) :
    m.Extends s m' := by
  rcases resolveKey_cases hr with ⟨rfl, -⟩ | ⟨hnone, atom, hlook, hlearn⟩ |
    ⟨hnone, atom, _, hlook, -, hpost⟩
  · exact .refl s m'
  · obtain rfl := Store.key_of_look (.inl hlook)
    obtain ⟨-, rfl⟩ := Prod.mk.inj hlearn
    exact extends_learn hnone hlook
  · obtain rfl := Store.key_of_look (.inr hlook)
    obtain ⟨-, rfl⟩ := Prod.mk.inj hpost
    exact extends_postpone hnone hlook

end Resolving

section Adopting

/-- A manager that has taken instances over from the lazy atoms into the known ones. -/
structure Adopts (atoms : List Handle) (state : AtomState) (m m' : Manager) : Prop where
  /-- What is not stored is dealt with in the same way. -/
  policy : m'.policy = m.policy
  /-- There are no new cells. -/
  size : m'.pool.cells.size = m.pool.cells.size
  /-- No value changes. -/
  values : ∀ h, m'.pool.value h = m.pool.value h
  /-- The instances live where they are said to live. -/
  states : ∀ h ∈ atoms, m'.pool.state h = state
  /-- The others live where they did. -/
  otherStates : ∀ h, m.Gives h → h ∉ atoms → m'.pool.state h = m.pool.state h
  /-- The instances are known. -/
  known : ∀ h ∈ atoms, m'.known.find? h.key = some h
  /-- Of other keys the same is known. -/
  otherKnown : ∀ k, k ∉ atoms.map Handle.key → m'.known.find? k = m.known.find? k
  /-- The instances are not lazy. -/
  lazy : ∀ h ∈ atoms, m'.lazy.find? h.key = none
  /-- Of other keys the same are lazy. -/
  otherLazy : ∀ k, k ∉ atoms.map Handle.key → m'.lazy.find? k = m.lazy.find? k

theorem adopts_adopt {m : Manager} (hm : m.Sound) {atoms : List Handle}
    (hatoms : ∀ h ∈ atoms, m.Gives h) (state : AtomState) :
    m.Adopts atoms state (m.adopt atoms state) := by
  rw [adopt_eq_foldl]
  induction atoms generalizing m with
  | nil =>
    exact ⟨rfl, rfl, fun _ => rfl, fun _ h => absurd h List.not_mem_nil, fun _ _ _ => rfl,
      fun _ h => absurd h List.not_mem_nil, fun _ _ => rfl,
      fun _ h => absurd h List.not_mem_nil, fun _ _ => rfl⟩
  | cons a atoms ih =>
    have ha := hatoms a List.mem_cons_self
    obtain ⟨hsound, hgrows⟩ := adoptOne_sound_grows hm ha state
    have hrest := ih hsound fun h hh => hgrows.gives h (hatoms h (List.mem_cons_of_mem a hh))
    rw [List.foldl_cons]
    -- An atom of the list that is not adopted again keeps what adopting it did.
    have hkey : a ∉ atoms → a.key ∉ atoms.map Handle.key := by
      intro hnot hmem
      obtain ⟨h, hh, he⟩ := List.mem_map.mp hmem
      rw [(hatoms h (List.mem_cons_of_mem a hh)).eq_of_key_eq ha he] at hh
      exact hnot hh
    have hcons : ∀ {P : Handle → Prop}, (∀ h ∈ atoms, P h) → (a ∉ atoms → P a) →
        ∀ h ∈ a :: atoms, P h := by
      intro P hP hPa h hh
      by_cases hmem : h ∈ atoms
      · exact hP h hmem
      · obtain rfl := (List.mem_cons.mp hh).resolve_right hmem
        exact hPa hmem
    refine ⟨hrest.policy, hrest.size.trans (AtomPool.size_setState ..), fun h => ?_,
      hcons hrest.states fun hnot => ?_, fun h hh hnot => ?_, hcons hrest.known fun hnot => ?_,
      fun k hk => ?_, hcons hrest.lazy fun hnot => ?_, fun k hk => ?_⟩
    · exact (hrest.values h).trans (AtomPool.value_setState ..)
    · rw [hrest.otherStates a (hgrows.gives a ha) hnot]
      exact (AtomPool.state_setState ..).trans (if_pos ⟨rfl, hm.allocated a ha⟩)
    · obtain ⟨hne, hnot⟩ := not_or.mp (mt List.mem_cons.mpr hnot)
      rw [hrest.otherStates h (hgrows.gives h hh) hnot]
      refine (AtomPool.state_setState ..).trans (if_neg fun hserial => hne ?_)
      exact (hm.separate a h ha hh hserial.1).symm
    · rw [hrest.otherKnown a.key (hkey hnot), find?_known_adoptOne hm ha, if_pos rfl]
    · obtain ⟨hne, hk⟩ := not_or.mp (mt List.mem_cons.mpr hk)
      rw [hrest.otherKnown k hk, find?_known_adoptOne hm ha, if_neg hne]
    · rw [hrest.otherLazy a.key (hkey hnot), find?_lazy_adoptOne, if_pos rfl]
    · obtain ⟨hne, hk⟩ := not_or.mp (mt List.mem_cons.mpr hk)
      rw [hrest.otherLazy k hk, find?_lazy_adoptOne, if_neg hne]

section Lazy

variable {m m' : Manager} {atoms : List Handle} {state : AtomState}
  (h : m.Adopts atoms state m') (hm : m.Sound)
  (hatoms : ∀ a ∈ atoms, m.lazy.find? a.key = some a)

include h hm hatoms

/-- Of the lazy atoms those remain that are not taken over. -/
theorem Adopts.find?_lazy_iff {k : GroundKey} {a : Handle} :
    m'.lazy.find? k = some a ↔ m.lazy.find? k = some a ∧ a ∉ atoms := by
  by_cases hmem : k ∈ atoms.map Handle.key
  · obtain ⟨b, hb, rfl⟩ := List.mem_map.mp hmem
    rw [h.lazy b hb, hatoms b hb]
    refine iff_of_false (fun he => by cases he) fun ⟨he, hnot⟩ => hnot ?_
    exact Option.some.inj he ▸ hb
  · rw [h.otherLazy k hmem]
    refine (and_iff_left_of_imp fun hk ha => hmem ?_).symm
    exact List.mem_map.mpr ⟨a, ha, hm.filed k a (instance?_of_lazy hk)⟩

/-- The known atoms are the old ones and those that are taken over. -/
theorem Adopts.find?_known_iff {k : GroundKey} {a : Handle} :
    m'.known.find? k = some a ↔ m.known.find? k = some a ∨ a ∈ atoms ∧ a.key = k := by
  by_cases hmem : k ∈ atoms.map Handle.key
  · obtain ⟨b, hb, rfl⟩ := List.mem_map.mp hmem
    rw [h.known b hb, hm.find?_known_of_lazy (hatoms b hb)]
    constructor
    · intro he
      obtain rfl := Option.some.inj he
      exact .inr ⟨hb, rfl⟩
    · rintro (he | ⟨ha, hkey⟩)
      · cases he
      · rw [← hatoms b hb, ← hkey, hatoms a ha]
  · rw [h.otherKnown k hmem]
    refine (or_iff_left fun ⟨ha, hkey⟩ => hmem ?_).symm
    exact List.mem_map.mpr ⟨a, ha, hkey⟩

end Lazy

end Adopting

section Promoting

variable {p : Predicate} {source goal : PartitionId} {pool : AtomPool}

theorem movesOn_promoteOne (p : Predicate) (source goal : PartitionId) (pool : AtomPool)
    (h a : Handle) :
    (pool.state a).MovesOn source goal ((promoteOne p source goal pool h).state a) := by
  rw [promoteOne]
  split
  · rename_i hcond
    rw [AtomPool.state_setState]
    split
    · rename_i hserial
      exact .inr ⟨(AtomPool.state_congr hserial.1).symm.trans hcond.2, rfl⟩
    · exact .inl rfl
  · exact .inl rfl

theorem movesOn_foldl_promoteOne (p : Predicate) (source goal : PartitionId) (hs : List Handle)
    (pool : AtomPool) (a : Handle) :
    (pool.state a).MovesOn source goal ((hs.foldl (promoteOne p source goal) pool).state a) := by
  induction hs generalizing pool with
  | nil => exact .inl rfl
  | cons h hs ih => exact (movesOn_promoteOne p source goal pool h a).trans (ih _)

theorem value_foldl_promoteOne (hs : List Handle) (pool : AtomPool) (p : Predicate)
    (source goal : PartitionId) (a : Handle) :
    (hs.foldl (promoteOne p source goal) pool).value a = pool.value a := by
  induction hs generalizing pool with
  | nil => rfl
  | cons h hs ih =>
    rw [List.foldl_cons, ih, promoteOne]
    split
    · exact AtomPool.value_setState ..
    · rfl

/-- The instances of the list that are of the predicate and live in the one partition live in the
other one afterwards. -/
theorem state_foldl_promoteOne {hs : List Handle} {h : Handle} (hh : h ∈ hs)
    (hp : h.key.predicate = p) (hstate : pool.state h = .unobserved source) :
    (hs.foldl (promoteOne p source goal) pool).state h = .unobserved goal := by
  induction hs generalizing pool with
  | nil => exact absurd hh List.not_mem_nil
  | cons a hs ih =>
    rw [List.foldl_cons]
    have hgoal : (promoteOne p source goal pool a).state h = .unobserved goal →
        (hs.foldl (promoteOne p source goal) (promoteOne p source goal pool a)).state h =
          .unobserved goal := by
      intro hg
      rcases movesOn_foldl_promoteOne p source goal hs (promoteOne p source goal pool a) h with
        hsame | hmoved
      · exact hsame.trans hg
      · exact hmoved.2
    rcases List.mem_cons.mp hh with rfl | hh
    · refine hgoal ?_
      rw [promoteOne, if_pos ⟨hp, hstate⟩, AtomPool.state_setState,
        if_pos ⟨rfl, AtomPool.lt_size_of_state hstate⟩]
    · rcases movesOn_promoteOne p source goal pool a h with hsame | hmoved
      · exact ih hh (hsame.trans hstate)
      · exact hgoal hmoved.2

/-- A manager whose known atoms of some predicates have moved on from one partition to another. -/
structure Promotes (predicates : List Predicate) (source goal : PartitionId) (m m' : Manager) :
    Prop where
  /-- What is not stored is dealt with in the same way. -/
  policy : m'.policy = m.policy
  /-- The known atoms stay. -/
  known : m'.known = m.known
  /-- The lazy atoms stay. -/
  lazy : m'.lazy = m.lazy
  /-- No value changes. -/
  values : ∀ h, m'.pool.value h = m.pool.value h
  /-- Instances stay where they live, or move on. -/
  states : ∀ h, (m.pool.state h).MovesOn source goal (m'.pool.state h)
  /-- Known atoms of the predicates move on. -/
  moved : ∀ k h, m.known.find? k = some h → h.key.predicate ∈ predicates →
    m.pool.state h = .unobserved source → m'.pool.state h = .unobserved goal

variable {m m₁ m' : Manager} {predicates : List Predicate}

theorem Promotes.refl (m : Manager) : m.Promotes [] source goal m :=
  ⟨rfl, rfl, rfl, fun _ => rfl, fun _ => .inl rfl, fun _ _ _ h => absurd h List.not_mem_nil⟩

/-- Promoting one more predicate first. -/
theorem Promotes.cons (p : Predicate)
    (h : (m.promote p source goal).Promotes predicates source goal m') :
    m.Promotes (p :: predicates) source goal m' where
  policy := h.policy
  known := h.known
  lazy := h.lazy
  values a := (h.values a).trans (value_foldl_promoteOne ..)
  states a := (movesOn_foldl_promoteOne p source goal m.known.values m.pool a).trans (h.states a)
  moved k a hk hp hstate := by
    have hfirst : ((m.promote p source goal).pool.state a) = .unobserved goal →
        m'.pool.state a = .unobserved goal :=
      fun hg => (h.states a).elim (fun hsame => hsame.trans hg) And.right
    by_cases hpa : a.key.predicate = p
    · exact hfirst (state_foldl_promoteOne (FiniteMap.mem_values_iff.mpr ⟨k, hk⟩) hpa hstate)
    · have hrest := (List.mem_cons.mp hp).resolve_left hpa
      rcases movesOn_foldl_promoteOne p source goal m.known.values m.pool a with hsame | hmoved
      · exact h.moved k a hk hrest (hsame.trans hstate)
      · exact hfirst hmoved.2

end Promoting

end Manager

end RuleGrounding
