import RuleGrounding.Proofs.Activation.Outcomes

/-!
# Where instances are said to live

An instance has a state, which says where its atom lives, and the store has the atom
itself. Resolving reads the one off the other; staging and moving on change both. What
is said stays true through all of it: a known atom lives where the store has it, a lazy
one nowhere.
-/

namespace RuleGrounding

namespace PartitionLayout

variable {l : PartitionLayout} {p : PartitionId}

/-- The state of an atom that lies in a partition. -/
def stateIn (l : PartitionLayout) (p : PartitionId) : AtomState :=
  if l.isRead p then .observed p else .unobserved p

/-- Neither the write nor the lazy partition holds evidence. -/
theorem not_isRead_of_nodup (hl : l.visible.Nodup) (hp : p ∈ [l.write, l.lazy]) :
    ¬ l.isRead p = true := by
  intro hread
  obtain ⟨-, -, hapart⟩ := List.nodup_append.mp hl
  exact hapart p (of_decide_eq_true hread) p hp rfl

theorem stateIn_write (hl : l.visible.Nodup) : l.stateIn l.write = .unobserved l.write :=
  if_neg (not_isRead_of_nodup hl List.mem_cons_self)

theorem stateIn_lazy (hl : l.visible.Nodup) : l.stateIn l.lazy = .unobserved l.lazy :=
  if_neg (not_isRead_of_nodup hl (List.mem_cons_of_mem _ List.mem_cons_self))

theorem lazy_ne_write_of_nodup (hl : l.visible.Nodup) : l.lazy ≠ l.write := by
  obtain ⟨-, hroles, -⟩ := List.nodup_append.mp hl
  intro he
  exact (List.nodup_cons.mp hroles).1 (List.mem_singleton.mpr he.symm)

/-- Only the atoms in the lazy partition are said to live there. -/
theorem stateIn_eq_unobserved_lazy_iff (hl : l.visible.Nodup) :
    l.stateIn p = .unobserved l.lazy ↔ p = l.lazy := by
  constructor
  · intro h
    rw [stateIn] at h
    split at h
    · cases h
    · exact AtomState.unobserved.inj h
  · rintro rfl
    exact stateIn_lazy hl

end PartitionLayout

namespace Store

variable {s s' : Store} {k : GroundKey} {state : AtomState} {p : PartitionId}

/-- The state that an atom has by what is stored, unless it is deferred. -/
def place? (s : Store) (k : GroundKey) : Option AtomState :=
  match s.look k with
  | .present atom => some atom.state
  | .absent _ => none

theorem place?_of_functional {builtin : Builtin} (hk : k.predicate.kind = .functional builtin) :
    s.place? k = some .computed := by
  rw [place?, look, hk]

/-- A standard atom has the state of the partition in which it is stored. -/
theorem place?_of_standard (hk : k.predicate.isStandard = true) :
    s.place? k = (s.get? k).map fun stored => s.layout.stateIn stored.partition := by
  have hkind : k.predicate.kind = .standard := of_decide_eq_true hk
  rw [place?, look, hkind]
  cases s.get? k <;> rfl

/-- An atom that stays in its partition, with whatever value, keeps its state. -/
theorem place?_congr (hlayout : s'.layout = s.layout)
    (hrow : (s'.rows.find? k).map StoredAtom.partition =
      (s.rows.find? k).map StoredAtom.partition) : s'.place? k = s.place? k := by
  by_cases hk : k.predicate.isStandard = true
  · rw [place?_of_standard hk, place?_of_standard hk, get?, get?, hlayout]
    cases hbefore : s.rows.find? k with
    | none =>
      rw [hbefore, Option.map_none, Option.map_eq_none_iff] at hrow
      rw [hrow]
    | some before =>
      rw [hbefore, Option.map_some, Option.map_eq_some_iff] at hrow
      obtain ⟨after, hafter, hpartition⟩ := hrow
      rw [hafter, Option.filter_some, Option.filter_some, hpartition]
      split
      · exact congrArg (fun p => some (s.layout.stateIn p)) hpartition
      · rfl
  · cases hkind : k.predicate.kind with
    | standard => exact absurd (decide_eq_true hkind) hk
    | functional builtin => rw [place?_of_functional hkind, place?_of_functional hkind]

section Commit

variable {atoms : List (GroundKey × Float)} (h : s.commit atoms p = .ok s')

include h

/-- A commit leaves the states of the atoms that are stored: it does not move them. -/
theorem place?_of_commit (hk : s.place? k = some state) : s'.place? k = some state := by
  obtain ⟨hallowed, hcommits⟩ := commits_of_commit h
  refine (place?_congr hcommits.layout ?_).trans hk
  by_cases hmem : k ∈ atoms.map Prod.fst
  · obtain ⟨value, -, hvalue⟩ := hcommits.stored k hmem
    obtain ⟨a, ha, rfl⟩ := List.mem_map.mp hmem
    obtain ⟨hstandard, hplace⟩ := standard_of_insertFault?_eq_none (hallowed a ha)
    rw [place?_of_standard hstandard, Option.map_eq_some_iff] at hk
    obtain ⟨stored, hstored, -⟩ := hk
    have hrow := (get?_eq_some_iff.mp hstored).1
    rw [hvalue, hrow, Option.map_some, Option.map_some, hplace stored hrow]
  · rw [hcommits.others k hmem]

/-- The atoms of a commit have the state of its partition. -/
theorem place?_of_mem_commit (hp : s.layout.contains p = true) (hk : k ∈ atoms.map Prod.fst) :
    s'.place? k = some (s.layout.stateIn p) := by
  obtain ⟨hallowed, hcommits⟩ := commits_of_commit h
  obtain ⟨value, -, hvalue⟩ := hcommits.stored k hk
  obtain ⟨a, ha, rfl⟩ := List.mem_map.mp hk
  have hstored : s'.get? a.1 = some ⟨value, p⟩ :=
    get?_eq_some_iff.mpr ⟨hvalue, hcommits.layout ▸ hp⟩
  rw [place?_of_standard (standard_of_insertFault?_eq_none (hallowed a ha)).1, hstored,
    hcommits.layout, Option.map_some]

end Commit

/-- Moving the staged atoms of a predicate on changes the states of these atoms. -/
theorem place?_moveToWrite (hroles : s.layout.visible.Nodup) {q : Predicate} {n : Nat}
    (h : s.moveToWrite q s.layout.lazy = .ok (n, s')) (k : GroundKey) :
    s'.place? k = (s.place? k).map fun state =>
      if k.predicate = q ∧ state = .unobserved s.layout.lazy then .unobserved s.layout.write
      else state := by
  have hapart := PartitionLayout.lazy_ne_write_of_nodup hroles
  obtain ⟨-, -, rfl⟩ := moveToWrite_eq_ok h
  by_cases hk : k.predicate.isStandard = true
  · rw [place?_of_standard hk, place?_of_standard hk, get?, get?, find?_relocated,
      layout_relocated]
    cases s.rows.find? k with
    | none => rfl
    | some stored =>
      by_cases hmoves : k.predicate = q ∧ stored.partition = s.layout.lazy
      · have hcond := relocate_of_moves (moves_iff.mpr ⟨hmoves, hapart⟩)
        obtain ⟨hq, hlazy⟩ := hmoves
        rw [Option.map_some, hcond, Option.filter_some, Option.filter_some,
          if_pos s.layout.contains_write, hlazy, if_pos s.layout.contains_lazy, Option.map_some,
          Option.map_some, Option.map_some, hlazy, PartitionLayout.stateIn_lazy hroles,
          PartitionLayout.stateIn_write hroles, if_pos ⟨hq, rfl⟩]
      · have hcond : ¬ s.moves q s.layout.lazy k stored = true :=
          fun hmove => hmoves (moves_iff.mp hmove).1
        rw [Option.map_some, relocate_of_not_moves hcond, Option.filter_some]
        split
        · rw [Option.map_some, Option.map_some, if_neg]
          rwa [PartitionLayout.stateIn_eq_unobserved_lazy_iff hroles]
        · rfl
  · cases hkind : k.predicate.kind with
    | standard => exact absurd (decide_eq_true hkind) hk
    | functional builtin =>
      rw [place?_of_functional hkind, place?_of_functional hkind, Option.map_some, if_neg]
      rintro ⟨-, he⟩
      cases he

end Store

/-- Setting a value leaves where instances live. -/
@[simp] theorem AtomPool.state_setValue (pool : AtomPool) (h : Handle) (value : Float)
    (a : Handle) : (pool.setValue h value).state a = pool.state a := by
  simp only [state, cell, setValue, modify, Array.getElem?_modify]
  split
  · cases pool.cells[a.serial]? <;> rfl
  · rfl

namespace Manager

variable {s s' : Store} {m m' : Manager} {k : GroundKey} {h : Handle} {p : Predicate}
  {source goal : PartitionId}

/-- Promoting the instances of a predicate leaves those of others. -/
theorem state_foldl_promoteOne_of_ne {hs : List Handle} {pool : AtomPool}
    (hne : ∀ a ∈ hs, a.serial = h.serial → a.key.predicate ≠ p) :
    (hs.foldl (promoteOne p source goal) pool).state h = pool.state h := by
  induction hs generalizing pool with
  | nil => rfl
  | cons a hs ih =>
    rw [List.foldl_cons, ih fun b hb => hne b (List.mem_cons_of_mem a hb), promoteOne]
    split
    · rename_i hcond
      rw [AtomPool.state_setState, if_neg]
      exact fun hserial => hne a List.mem_cons_self hserial.1 hcond.1
    · rfl

/-- Promoting changes the states of the known atoms of the predicate that live in the one
partition, and no others. -/
theorem Sound.state_promote (hm : m.Sound) (hk : m.known.find? k = some h) (p : Predicate)
    (source goal : PartitionId) : (m.promote p source goal).pool.state h =
      if k.predicate = p ∧ m.pool.state h = .unobserved source then .unobserved goal
      else m.pool.state h := by
  have hkey : h.key = k := hm.filed k h (hm.instance?_of_known hk)
  have hmem : h ∈ m.known.values := FiniteMap.mem_values_iff.mpr ⟨k, hk⟩
  rw [pool_promote]
  by_cases hp : k.predicate = p
  · by_cases hstate : m.pool.state h = .unobserved source
    · rw [if_pos ⟨hp, hstate⟩]
      exact state_foldl_promoteOne hmem (hkey ▸ hp) hstate
    · rw [if_neg fun hcond => hstate hcond.2]
      have hmoves := movesOn_foldl_promoteOne p source goal m.known.values m.pool h
      exact hmoves.resolve_right fun hmoved => hstate hmoved.1
  · rw [if_neg fun hcond => hp hcond.1]
    apply state_foldl_promoteOne_of_ne
    intro a ha hserial hpredicate
    -- An instance in the same cell is this one, which is of another predicate.
    obtain ⟨k', hk'⟩ := FiniteMap.mem_values_iff.mp ha
    have hsame := hm.separate a h (hm.gives_of_known hk') (hm.gives_of_known hk) hserial
    rw [hsame, hkey] at hpredicate
    exact hp hpredicate

/-- What is said of instances is true of the store. -/
structure Mirrors (s : Store) (m : Manager) : Prop where
  /-- A known atom is stored or computed, and lives where the store has it. -/
  known : ∀ k h, m.known.find? k = some h → s.place? k = some (m.pool.state h)
  /-- A lazy atom lives nowhere yet. -/
  lazy : ∀ k h, m.lazy.find? k = some h → m.pool.state h = .lazy

/-- Of a manager that has resolved nothing, nothing is said. -/
theorem mirrors_fresh (s : Store) (policy : Policy) : (fresh policy).Mirrors s :=
  ⟨fun _ _ hk => (by cases hk), fun _ _ hk => (by cases hk)⟩

/-- A manager that has resolved nothing says of an atom what the store says. -/
theorem fresh_resolveKey_of_place? (policy : Policy) {state : AtomState}
    (hk : s.place? k = some state) :
    ∃ a m, (fresh policy).resolveKey s k = .ok (a, m) ∧ m.pool.state a = state := by
  rw [Store.place?] at hk
  split at hk
  · rename_i atom hlook
    have hresolve : (fresh policy).resolveKey s k = .ok ((fresh policy).learn atom) := by
      rw [resolveKey, hlook]
      rfl
    refine ⟨_, _, hresolve, ?_⟩
    have hview := AtomPool.view_allocate (fresh policy).pool atom
    exact (congrArg GroundAtom.state hview).trans (Option.some.inj hk)
  · cases hk

/-- Instances that are resolved over the store live where it has them. -/
theorem Mirrors.resolve (hs : m.Mirrors s) (hm : m.Sound) (h : m.Extends s m') :
    m'.Mirrors s where
  known k a ha := by
    rcases h.learnt k a ha with hold | ⟨-, -, hlook⟩
    · rw [h.state (hm.allocated a (hm.gives_of_known hold))]
      exact hs.known k a hold
    · rw [Store.place?, hlook]
      rfl
  lazy k a ha := by
    rcases h.deferred k a ha with hold | ⟨-, -, hlook⟩
    · rw [h.state (hm.allocated a (hm.gives_of_lazy hold))]
      exact hs.lazy k a hold
    · exact congrArg GroundAtom.state (Store.eq_of_look_eq_absent hlook).2

/-- What is said stays true when the store keeps the states of the atoms it has. -/
theorem Mirrors.store (hs : m.Mirrors s)
    (hkept : ∀ k state, s.place? k = some state → s'.place? k = some state) : m.Mirrors s' :=
  ⟨fun k a ha => hkept k _ (hs.known k a ha), hs.lazy⟩

theorem Mirrors.setValue (hs : m.Mirrors s) (h : Handle) (value : Float) :
    (m.setValue h value).Mirrors s where
  known k a ha := by
    rw [Manager.setValue, AtomPool.state_setValue]
    exact hs.known k a ha
  lazy k a ha := by
    rw [Manager.setValue, AtomPool.state_setValue]
    exact hs.lazy k a ha

/-- Staging lazy atoms keeps what is said true: they are stored in the partition in which they are
said to live, and stored atoms stay. -/
theorem Mirrors.adopt (hs : m.Mirrors s) (hm : m.Sound) {atoms : List Handle} {state : AtomState}
    (hatoms : ∀ a ∈ atoms, m.lazy.find? a.key = some a)
    (hkept : ∀ k state, s.place? k = some state → s'.place? k = some state)
    (hstored : ∀ a ∈ atoms, s'.place? a.key = some state) :
    (m.adopt atoms state).Mirrors s' := by
  have hgives : ∀ a ∈ atoms, m.Gives a := fun a ha => hm.gives_of_lazy (hatoms a ha)
  have hadopts := adopts_adopt hm hgives state
  constructor
  · intro k a ha
    rcases (hadopts.find?_known_iff hm hatoms).mp ha with hold | ⟨hmem, rfl⟩
    · have hnot : a ∉ atoms := by
        intro hmem
        have hlazy := hatoms a hmem
        rw [hm.filed k a (hm.instance?_of_known hold)] at hlazy
        rw [hm.find?_known_of_lazy hlazy] at hold
        cases hold
      rw [hadopts.otherStates a (hm.gives_of_known hold) hnot]
      exact hkept k _ (hs.known k a hold)
    · rw [hadopts.states a hmem]
      exact hstored a hmem
  · intro k a ha
    obtain ⟨hold, hnot⟩ := (hadopts.find?_lazy_iff hm hatoms).mp ha
    rw [hadopts.otherStates a (hm.gives_of_lazy hold) hnot]
    exact hs.lazy k a hold

/-- Moving staged atoms on in the store and promoting their instances keeps what is said true,
whoever has staged them. -/
theorem Mirrors.promote (hs : m.Mirrors s) (hm : m.Sound) (hroles : s.layout.visible.Nodup)
    {n : Nat} (hmove : s.moveToWrite p s.layout.lazy = .ok (n, s')) :
    (m.promote p s.layout.lazy s.layout.write).Mirrors s' where
  known k a ha := by
    rw [Store.place?_moveToWrite hroles hmove, hm.state_promote ha, hs.known k a ha]
    rfl
  lazy k a ha := by
    have hlazy := hs.lazy k a ha
    have hmoves := movesOn_foldl_promoteOne p s.layout.lazy s.layout.write m.known.values m.pool a
    refine (hmoves.resolve_right fun hmoved => ?_).trans hlazy
    rw [hlazy] at hmoved
    cases hmoved.1

end Manager

namespace Session

variable {x y : Session} {m₀ : Manager} {hs : List Handle}

/-- A grounding step, whether it succeeds or fails, keeps what is said true. -/
theorem mirrors_run {α : Type} {step : Store → Grounding α} {kind : GroundRule → Prop}
    (hstep : Grounding.Extending x.store kind (step x.store)) (hm : x.manager.Sound)
    (hmirrors : x.manager.Mirrors x.store) :
    (x.run step).2.manager.Mirrors (x.run step).2.store :=
  hmirrors.resolve hm (hstep x.work).manager

/-- Unstaging keeps what is said true. -/
theorem mirrors_unstage (hx : x.work.Keeps m₀ hs) (hroles : x.store.layout.visible.Nodup)
    (hmirrors : x.manager.Mirrors x.store) (ps : List Predicate) :
    (x.unstage ps).2.manager.Mirrors (x.unstage ps).2.store := by
  induction ps generalizing x with
  | nil => exact hmirrors
  | cons p ps ih =>
    obtain ⟨n, t, hmove, hlayout, -, hunstage⟩ := x.exists_unstage_cons p ps
    rw [hunstage]
    apply ih
    · exact hx.later (Manager.sound_promote hx.sound ..) (Manager.grows_promote ..)
    · rwa [hlayout]
    · exact hmirrors.promote hx.sound hroles hmove

/-- Activating atoms keeps what is said true, wherever it ends. -/
theorem mirrors_activateAtoms (hx : x.work.Keeps m₀ hs) (hroles : x.store.layout.visible.Nodup)
    (hmirrors : x.manager.Mirrors x.store) {b : RuleBase} {atoms : List Handle}
    (hatoms : ∀ a ∈ atoms, x.manager.lazy.find? a.key = some a)
    {result : Except ActivationFault Unit} (h : x.activateAtoms b atoms = (result, y)) :
    y.manager.Mirrors y.store := by
  rcases activateAtoms_cases h with ⟨fault, -, -, rfl⟩ | ⟨staged, ground, w, hstage, hground, hend⟩
  · exact hmirrors
  · have hkeeps : staged.work.Keeps m₀ hs :=
      keeps_stage hx (fun a ha => hx.sound.gives_of_lazy (hatoms a ha)) hstage
    obtain ⟨store, hcommit, rfl⟩ := stage_eq_ok hstage
    have hlayout : store.layout = x.store.layout := (Store.commits_of_commit hcommit).2.layout
    -- After the staging the atoms are stored in the lazy partition, and said to live there.
    have hstaged : (x.manager.adopt atoms (.unobserved x.store.layout.lazy)).Mirrors store := by
      apply hmirrors.adopt hx.sound hatoms
      · exact fun k state hk => Store.place?_of_commit hcommit hk
      · intro a ha
        rw [← PartitionLayout.stateIn_lazy hroles]
        apply Store.place?_of_mem_commit hcommit x.store.layout.contains_lazy
        rw [List.map_map]
        exact List.mem_map.mpr ⟨a, ha, rfl⟩
    have hgrounded : w.manager.Mirrors store :=
      hstaged.resolve hkeeps.sound (RuleBase.extends_groundStaged hground).manager
    rcases hend with ⟨fault, -, -, rfl⟩ | ⟨n, -, hunstage⟩
    · exact hgrounded
    · have hdone := mirrors_unstage (x := ⟨store, w⟩) (b.keeps_groundStaged hkeeps hground)
        (hlayout ▸ hroles) hgrounded (standardPredicates atoms)
      rwa [hunstage] at hdone

/-- Every action keeps what is said true, except that atoms are moved behind the manager's back. -/
theorem mirrors_perform (hx : x.work.Keeps m₀ hs) (hroles : x.store.layout.visible.Nodup)
    (hmirrors : x.manager.Mirrors x.store) {a : Action} (ha : ∀ p source, a ≠ .move p source) :
    (x.perform a).manager.Mirrors (x.perform a).store := by
  cases a with
  | resolve p args =>
    rw [perform]
    cases hr : x.resolve p args with
    | error fault => exact hmirrors
    | ok r =>
      obtain ⟨m, hm, hy⟩ := resolve_eq_ok hr
      obtain ⟨k, -, hk⟩ := Manager.resolve_eq_ok_iff.mp hm
      dsimp only
      rw [hy]
      exact hmirrors.resolve hx.sound (Manager.extends_of_resolveKey hk)
  | setValue h value => exact hmirrors.setValue h value
  | ground r => exact mirrors_run (r.extending_ground x.store) hx.sound hmirrors
  | groundResults r results =>
    exact mirrors_run (r.extending_groundResults x.store results) hx.sound hmirrors
  | groundAll b =>
    exact mirrors_run (Rule.extending_groundAll x.store b.rules) hx.sound hmirrors
  | activate b =>
    rw [perform]
    cases hrun : x.activate b with
    | mk result y =>
      rcases activate_cases hrun with ⟨-, rfl⟩ | ⟨threshold, activated, -, hactivate, -⟩
      · exact hmirrors
      · refine mirrors_activateAtoms hx hroles hmirrors (fun a ha => ?_) hactivate
        exact ((mem_eligible_iff hx.sound).mp ha).1
  | insert k value p =>
    rw [perform, insert, Store.insert_eq_commit]
    cases hcommit : x.store.commit [(k, value)] p with
    | error fault => exact hmirrors
    | ok store => exact hmirrors.store fun k state hk => Store.place?_of_commit hcommit hk
  | commit atoms p =>
    rw [perform]
    cases hcommit : x.store.commit atoms p with
    | error fault => exact hmirrors
    | ok store => exact hmirrors.store fun k state hk => Store.place?_of_commit hcommit hk
  | move p source => exact absurd rfl (ha p source)

/-- So do several actions. -/
theorem mirrors_after {threshold : Float} (hx : x.work.Keeps (.fresh (.deferring threshold)) hs)
    (hroles : x.store.layout.visible.Nodup) (hmirrors : x.manager.Mirrors x.store)
    {actions : List Action} (hactions : ∀ p source, .move p source ∉ actions) :
    (x.after actions).manager.Mirrors (x.after actions).store := by
  induction actions generalizing x hs with
  | nil => exact hmirrors
  | cons a actions ih =>
    have ha : ∀ p source, a ≠ .move p source := by
      rintro p source rfl
      exact hactions p source List.mem_cons_self
    apply ih (keeps_perform hx a)
    · rwa [layout_perform hx a]
    · exact mirrors_perform hx hroles hmirrors ha
    · exact fun p source hmem => hactions p source (List.mem_cons_of_mem a hmem)

/-- In a session under one deferring manager, over a well-formed layout and whatever is done but for
moving stored atoms directly: a known standard atom is stored, and its instance is observed or
unobserved as the partition holds evidence or not, which is also what any manager that has resolved
nothing says of it; a lazy atom is said to be lazy; and a known functional atom to be computed. -/
theorem states_tell_where_atoms_live {s : Store} {threshold : Float} {actions : List Action}
    {read : List PartitionId} {write lazy : PartitionId}
    (hlayout : PartitionLayout.make read write lazy = .ok s.layout)
    (hactions : ∀ p source, .move p source ∉ actions)
    (hx : x = (start s (.deferring threshold)).after actions) :
    (∀ k h, x.manager.known.find? k = some h → k.predicate.isStandard = true →
      (∃ stored, x.store.get? k = some stored ∧
        x.pool.state h = if x.store.layout.isRead stored.partition then
          .observed stored.partition else .unobserved stored.partition) ∧
      ∀ policy, ∃ a m, (Manager.fresh policy).resolveKey x.store k = .ok (a, m) ∧
        m.pool.state a = x.pool.state h) ∧
    (∀ k h, x.manager.lazy.find? k = some h → x.pool.state h = .lazy) ∧
    ∀ k h builtin, x.manager.known.find? k = some h →
      k.predicate.kind = .functional builtin → x.pool.state h = .computed := by
  have hmirrors : x.manager.Mirrors x.store := by
    rw [hx]
    exact mirrors_after (keeps_start s (.deferring threshold))
      (PartitionLayout.nodup_of_make hlayout) (Manager.mirrors_fresh s _) hactions
  refine ⟨?_, hmirrors.lazy, ?_⟩
  · intro k h hk hstandard
    have hplace := hmirrors.known k h hk
    refine ⟨?_, fun policy => ?_⟩
    · rw [Store.place?_of_standard hstandard, Option.map_eq_some_iff] at hplace
      obtain ⟨stored, hstored, hstate⟩ := hplace
      exact ⟨stored, hstored, hstate.symm⟩
    · exact Manager.fresh_resolveKey_of_place? policy hplace
  · intro k h builtin hk hkind
    have hplace := hmirrors.known k h hk
    rw [Store.place?_of_functional hkind] at hplace
    exact (Option.some.inj hplace).symm

/-- Once the infection of Ann is activated, it is said to live in the write partition; that she is
contagious, which the activation has deferred, is said to be lazy. -/
theorem infectious_lives_in_write_partition :
    PartitionLayout.make [⟨0⟩] ⟨1⟩ ⟨2⟩ = .ok undecidedStore.layout ∧
      (start undecidedStore (.deferring 0.5)).after
        (testActions ++ [.activate (contagionBase .text)]) = infectious ∧
      infectious.pool.state ⟨annInfected, 0⟩ = .unobserved ⟨1⟩ ∧
      infectious.pool.state ⟨annContagious, 1⟩ = .lazy := by
  have hlayout : PartitionLayout.make [⟨0⟩] ⟨1⟩ ⟨2⟩ = .ok undecidedStore.layout := rfl
  have hactions : ∀ p source,
      .move p source ∉ testActions ++ [.activate (contagionBase .text)] := by
    intro p source
    simp [testActions]
  have hx : (start undecidedStore (.deferring 0.5)).after
      (testActions ++ [.activate (contagionBase .text)]) = infectious := by
    have hafter : (start undecidedStore (.deferring 0.5)).after
        (testActions ++ [.activate (contagionBase .text)]) =
          tested.perform (.activate (contagionBase .text)) := rfl
    rw [hafter, perform, activate_tested_text]
  obtain ⟨hknown, hlazy, -⟩ := states_tell_where_atoms_live hlayout hactions hx.symm
  obtain ⟨⟨stored, hstored, hstate⟩, -⟩ := hknown annInfected ⟨annInfected, 0⟩ rfl rfl
  obtain rfl : stored = ⟨0.9, ⟨1⟩⟩ := (Option.some.inj hstored).symm
  exact ⟨hlayout, hx, hstate, hlazy annContagious ⟨annContagious, 1⟩ rfl⟩

end Session

end RuleGrounding
