import Mathlib.Data.List.Induction
import RuleGrounding.Proofs.Enumeration.Activation
import RuleGrounding.Proofs.Session.Deferral

/-!
# Grounding is reproducible

A store into which distinct atoms are inserted does not depend on the order of the
insertions. From there on sessions in which the same happens stay the same, whenever and
however their maps are enumerated anew: the store refuses no lazy atom, as nobody else
stores one, and all else is independent of enumeration.
-/

namespace RuleGrounding

namespace Store

variable {s : Store}

/-- The writes that insert some atoms one after the other. -/
def insertions (atoms : List (GroundKey × StoredAtom)) : List Write :=
  atoms.map fun a => .insert a.1 a.2.value a.2.partition

/-- An atom that is not stored is stored if it may be written. -/
theorem write_insert_of_new {a : GroundKey × StoredAtom} (h : s.rows.find? a.1 = none) :
    s.write (.insert a.1 a.2.value a.2.partition) =
      if s.writeFault? a.1 a.2.value a.2.partition = none then
        s.put a.1 a.2.value a.2.partition
      else s := by
  rw [write, insert, insertFault?, placeFault?, h]
  cases s.writeFault? a.1 a.2.value a.2.partition <;> rfl

/-- Of distinct atoms that are not stored, those are stored that may be written. -/
theorem find?_writeAll_insertions {atoms : List (GroundKey × StoredAtom)}
    (hkeys : (atoms.map Prod.fst).Nodup) (hnew : ∀ a ∈ atoms, s.rows.find? a.1 = none)
    {k : GroundKey} {stored : StoredAtom} :
    (s.writeAll (insertions atoms)).rows.find? k = some stored ↔
      s.rows.find? k = some stored ∨
        (k, stored) ∈ atoms ∧ s.writeFault? k stored.value stored.partition = none := by
  induction atoms generalizing s with
  | nil => exact (or_iff_left fun h => absurd h.1 List.not_mem_nil).symm
  | cons a atoms ih =>
    obtain ⟨hfirst, hkeys⟩ := List.nodup_cons.mp hkeys
    have hlater : ∀ b ∈ atoms, b.1 ≠ a.1 :=
      fun b hb he => hfirst (List.mem_map.mpr ⟨b, hb, he⟩)
    have hrest : ∀ b ∈ atoms, s.rows.find? b.1 = none :=
      fun b hb => hnew b (List.mem_cons_of_mem a hb)
    change ((s.write (.insert a.1 a.2.value a.2.partition)).writeAll
      (insertions atoms)).rows.find? k = some stored ↔ _
    rw [write_insert_of_new (hnew a List.mem_cons_self)]
    split
    · rename_i hfault
      have hput : ∀ k, (s.put a.1 a.2.value a.2.partition).rows.find? k =
          if k = a.1 then some a.2 else s.rows.find? k := fun k => FiniteMap.find?_insert ..
      have hnew' : ∀ b ∈ atoms,
          (s.put a.1 a.2.value a.2.partition).rows.find? b.1 = none := by
        intro b hb
        rw [hput, if_neg (hlater b hb), hrest b hb]
      rw [ih hkeys hnew', hput, List.mem_cons]
      by_cases hk : k = a.1
      · subst hk
        rw [if_pos rfl, hnew a List.mem_cons_self]
        constructor
        · rintro (he | ⟨hmem, -⟩)
          · rw [← Option.some.inj he]
            exact .inr ⟨.inl rfl, hfault⟩
          · exact absurd (List.mem_map.mpr ⟨_, hmem, rfl⟩) hfirst
        · rintro (he | ⟨he | hmem, -⟩)
          · cases he
          · exact .inl (congrArg (some ·.2) he.symm)
          · exact absurd (List.mem_map.mpr ⟨_, hmem, rfl⟩) hfirst
      · have hne : (k, stored) ≠ a := fun he => hk (congrArg Prod.fst he)
        rw [if_neg hk, or_iff_right hne]
        rfl
    · rename_i hfault
      have hne : (k, stored) = a → ¬ s.writeFault? k stored.value stored.partition = none := by
        rintro rfl
        exact hfault
      rw [ih hkeys hrest, List.mem_cons, or_and_right]
      exact or_congr_right (or_iff_right fun h => hne h.1 h.2).symm

/-- The order in which distinct atoms are inserted into an empty store does not matter. -/
theorem reorders_writeAll_insertions (layout : PartitionLayout) (default : Float)
    {atoms atoms' : List (GroundKey × StoredAtom)} (h : atoms.Perm atoms')
    (hkeys : (atoms.map Prod.fst).Nodup) :
    ((empty layout default).writeAll (insertions atoms)).Reorders
      ((empty layout default).writeAll (insertions atoms')) := by
  have hkeys' : (atoms'.map Prod.fst).Nodup := (h.map _).nodup_iff.mp hkeys
  refine ⟨?_, ?_, FiniteMap.reorders_iff.mpr fun k => Option.ext fun stored => ?_⟩
  · rw [layout_writeAll, layout_writeAll]
  · rw [defaultValue_writeAll, defaultValue_writeAll]
  · rw [find?_writeAll_insertions hkeys fun _ _ => rfl,
      find?_writeAll_insertions hkeys' fun _ _ => rfl, h.mem_iff]

end Store

/-- The action writes nothing to the store but what it activates. -/
def Action.IsInternal : Action → Prop
  | .insert .. => False
  | .commit .. => False
  | .move .. => False
  | _ => True

namespace Session

variable {x y z : Session} {s t : Store} {policy : Policy} {threshold : Float}
  {actions : List Action}

/-- Resolving an atom in both sessions. -/
theorem Reorders.resolve (h : x.Reorders y) (p : Predicate) (args : List Constant) :
    (x.perform (.resolve p args)).Reorders (y.perform (.resolve p args)) := by
  rw [perform, perform, Session.resolve, Session.resolve]
  rcases h.manager.resolve_cases h.store p args with ⟨a, n, n', hrun, hrun', hn⟩ |
    ⟨fault, hrun, hrun'⟩
  · rw [hrun, hrun']
    exact ⟨h.store, hn, h.work.rules⟩
  · rw [hrun, hrun']
    exact h

/-- Internal actions store no lazy atom directly. -/
theorem forestalledBy_eq_nil (h : ∀ a ∈ actions, a.IsInternal) :
    x.forestalledBy actions = [] := by
  induction actions generalizing x with
  | nil => rfl
  | cons a actions ih =>
    have hstored : x.stored a = [] := by
      have ha := h a List.mem_cons_self
      cases a <;> first | rfl | exact ha.elim
    rw [forestalledBy, ih fun b hb => h b (List.mem_cons_of_mem a hb), hstored]
    rfl

/-- What may become of a session by some actions, if its maps may be enumerated anew whenever
something happens. -/
inductive MayBecome (x : Session) : List Action → Session → Prop where
  /-- Nothing has happened yet. -/
  | refl {y : Session} (h : x.Reorders y) : MayBecome x [] y
  /-- One more action is performed. -/
  | snoc {actions : List Action} {y z : Session} {a : Action} (h : MayBecome x actions y)
    (hz : (y.perform a).Reorders z) : MayBecome x (actions ++ [a]) z

/-- Nothing needs to be enumerated anew. -/
theorem mayBecome_after (x : Session) (actions : List Action) :
    x.MayBecome actions (x.after actions) := by
  induction actions using List.reverseRecOn with
  | nil => exact .refl (.refl x)
  | append_singleton actions a ih =>
    rw [after, List.foldl_append]
    exact .snoc ih (.refl _)

theorem MayBecome.of_reorders (hx : x.Reorders y) (h : y.MayBecome actions z) :
    x.MayBecome actions z := by
  induction h with
  | refl h => exact .refl (hx.trans h)
  | snoc _ hz ih => exact .snoc ih hz

/-- An action that writes nothing else to the store does the same in both sessions. -/
theorem Reorders.perform (h : x.Reorders y) (hx : x.manager.Sound)
    (hapart : x.store.layout.lazy ≠ x.store.layout.write) (hfree : x.AdmitsEligible) {a : Action}
    (ha : a.IsInternal) : (x.perform a).Reorders (y.perform a) := by
  cases a with
  | resolve p args => exact h.resolve p args
  | setValue a value => exact h.setValue a value
  | ground r => exact (h.run fun s s' => r.parallel_ground s s').2
  | groundResults r results => exact (h.run fun s s' => r.parallel_groundResults s s' results).2
  | groundAll b => exact (h.run fun s s' => Rule.parallel_groundAll s s' b.rules).2
  | activate b => exact (h.activate hx hapart hfree b).2
  | insert => exact ha.elim
  | commit => exact ha.elim
  | move => exact ha.elim

/-- A session goes on with its instances in order and with the roles of its partitions. -/
theorem sound_and_layout_after (s : Store) (policy : Policy) (actions : List Action) :
    ((start s policy).after actions).manager.Sound ∧
      ((start s policy).after actions).store.layout = s.layout := by
  obtain ⟨writes, hwrites⟩ := becomes_after (start s policy) actions
  refine ⟨(keeps_after (keeps_start s policy) actions).sound, ?_⟩
  rw [hwrites, Store.layout_writeAll]
  rfl

section Histories

variable (hs : s.Sound) (hdefault : ∃ v, s.defaultValue = SoftValue.clamp v)
  (h : ∀ a ∈ actions, a.IsInternal)

include hs hdefault h

/-- After internal actions the store refuses none of the eligible atoms, since no lazy atom is
stored. -/
theorem admitsEligible_after (policy : Policy) (hapart : s.layout.lazy ≠ s.layout.write) :
    ((start s policy).after actions).AdmitsEligible := by
  intro threshold hthreshold a ha
  obtain rfl : policy = .deferring threshold :=
    (keeps_after (keeps_start s policy) actions).grows.policy.symm.trans hthreshold
  generalize hx : (start s (.deferring threshold)).after actions = x at ha ⊢
  have hstart := keeps_start s (.deferring threshold)
  obtain ⟨hsound, -⟩ := sound_and_deferring_after hx.symm
  have hdefers : x.manager.DefersStorable := by
    rw [← hx]
    exact defersStorable_after hstart hdefault (Manager.defersStorable_fresh _) actions
  have hstore : x.store.Sound := by
    rw [← hx]
    exact (becomes_after (start s (.deferring threshold)) actions).sound hs
  have hlazy : a.key ∈ x.manager.lazy.keys :=
    FiniteMap.mem_keys_iff.mpr ⟨a, ((mem_eligible_iff hsound).mp ha).1⟩
  have hunstored : ¬ x.store.Stores a.key := by
    rw [← hx] at hlazy ⊢
    rw [stores_after_iff hstart hs hapart hlazy, forestalledBy_eq_nil h]
    rintro (⟨hnone, -⟩ | hnone) <;> exact absurd hnone List.not_mem_nil
  rw [insertFault?_of_mem_eligible hsound hdefers ha, Store.placeFault?_eq_none_iff]
  intro stored hstored
  exact absurd ⟨stored, (hstore.get?_eq a.key).trans hstored⟩ hunstored

/-- Whatever may become of a new session by internal actions is the same up to enumeration. -/
theorem MayBecome.reorders (hapart : s.layout.lazy ≠ s.layout.write)
    (hx : (start s policy).MayBecome actions x) :
    ((start s policy).after actions).Reorders x := by
  induction hx with
  | refl hx => exact hx
  | @snoc actions x z a _ hz ih =>
    have hbefore : ∀ b ∈ actions, b.IsInternal := fun b hb => h b (List.mem_append_left _ hb)
    have ha : a.IsInternal := h a (List.mem_append_right _ (List.mem_singleton_self a))
    obtain ⟨hsound, hlayout⟩ := sound_and_layout_after s policy actions
    have hfree := admitsEligible_after hs hdefault hbefore policy hapart
    rw [after, List.foldl_append]
    exact ((ih hbefore).perform hsound (hlayout ▸ hapart) hfree ha).trans hz

end Histories

/-- Let the same distinct atoms be inserted into two empty stores with the same roles of partitions
and the same default value, in any two orders, and let two managers of one kind that have resolved
nothing work over them. Let the same happen in both sessions: atoms are resolved, instances are
given values, rules are grounded, or atoms are activated. At any time the maps may be enumerated in
another order. Then every query has the same rows in the same order, also if its pinned variables
are enumerated in another order. The ground rules are the same in the same order, and their atoms
have the same values and live in the same places. Grounding a rule base next has the same result
and leaves the same ground rules, and so does an activation. -/
theorem grounding_is_reproducible {read : List PartitionId} {write lazy : PartitionId}
    {layout : PartitionLayout} (hlayout : PartitionLayout.make read write lazy = .ok layout)
    {default : Float} {atoms atoms' : List (GroundKey × StoredAtom)} (hatoms : atoms.Perm atoms')
    (hkeys : (atoms.map Prod.fst).Nodup)
    (hs : ((Store.empty layout default).writeAll (Store.insertions atoms)).Reorders s)
    (ht : ((Store.empty layout default).writeAll (Store.insertions atoms')).Reorders t)
    (hactions : ∀ a ∈ actions, a.IsInternal) (hx : (start s policy).MayBecome actions x)
    (hy : (start t policy).MayBecome actions y) :
    (∀ (q : Query) (θ : Assignment), q.pinned.Reorders θ →
      q.evaluate x.store = (q.pin θ).evaluate y.store) ∧
    (x.work.rules = y.work.rules ∧ x.pool = y.pool) ∧
    (∀ b : RuleBase, (x.run b.ground).1 = (y.run b.ground).1 ∧
      (x.run b.ground).2.work.rules = (y.run b.ground).2.work.rules ∧
      (x.run b.ground).2.pool = (y.run b.ground).2.pool) ∧
    ∀ b, (x.activate b).1 = (y.activate b).1 ∧
      (x.activate b).2.work.rules = (y.activate b).2.work.rules ∧
      (x.activate b).2.pool = (y.activate b).2.pool := by
  let inserted := (Store.empty layout default).writeAll (Store.insertions atoms)
  have hsound : inserted.Sound := (Store.sound_empty layout default).writeAll _
  have hdefault : ∃ v, inserted.defaultValue = SoftValue.clamp v :=
    ⟨default, Store.defaultValue_writeAll _ _⟩
  have hapart : inserted.layout.lazy ≠ inserted.layout.write := by
    rw [Store.layout_writeAll]
    exact PartitionLayout.lazy_ne_write_of_make hlayout
  have hother : inserted.Reorders t :=
    (Store.reorders_writeAll_insertions layout default hatoms hkeys).trans ht
  -- Both sessions are what has become of one, over the store of the first insertions.
  have hleft := (hx.of_reorders (reorders_start hs policy)).reorders hsound hdefault hactions hapart
  have hright :=
    (hy.of_reorders (reorders_start hother policy)).reorders hsound hdefault hactions hapart
  have hsame : x.Reorders y := hleft.symm.trans hright
  refine ⟨fun q θ hθ => (Query.evaluate_pin hsame.store hθ).symm,
    ⟨hsame.work.rules, hsame.pool_eq⟩, fun b => ?_, fun b => ?_⟩
  · obtain ⟨hresult, hrun⟩ := hsame.run fun s t => Rule.parallel_groundAll s t b.rules
    exact ⟨hresult, hrun.work.rules, hrun.pool_eq⟩
  · obtain ⟨hmanager, hlayout⟩ := sound_and_layout_after inserted policy actions
    have hfree := admitsEligible_after hsound hdefault hactions policy hapart
    obtain ⟨hresult, hafter⟩ := hleft.activate hmanager (hlayout ▸ hapart) hfree b
    obtain ⟨hresult', hafter'⟩ := hright.activate hmanager (hlayout ▸ hapart) hfree b
    have hactivated := hafter.symm.trans hafter'
    exact ⟨hresult.symm.trans hresult', hactivated.work.rules, hactivated.pool_eq⟩

/-- That Bob is infected. -/
def bobInfected : GroundKey := ⟨.standard "Infected" [.text], [.text "Bob"], rfl⟩

/-- That Bob is contagious. -/
def bobContagious : GroundKey := ⟨.standard "Contagious" [.text], [.text "Bob"], rfl⟩

/-- That both persons are infected, as evidence. -/
def infections : List (GroundKey × StoredAtom) :=
  [(annInfected, ⟨1.0, ⟨0⟩⟩), (bobInfected, ⟨1.0, ⟨0⟩⟩)]

/-- The rule about contagion is grounded, and then it is raised that the two are contagious. -/
def outbreak : List Action := [
  .groundAll (contagionBase .text),
  .setValue ⟨annContagious, 1⟩ 0.9,
  .setValue ⟨bobContagious, 3⟩ 0.9]

/-- The store in which the one infection is enumerated first. -/
def annFirst : Store :=
  (Store.empty ⟨[⟨0⟩], ⟨1⟩, ⟨2⟩⟩ 0.0).writeAll (Store.insertions infections)

/-- The store in which the other infection is enumerated first. -/
def bobFirst : Store :=
  (Store.empty ⟨[⟨0⟩], ⟨1⟩, ⟨2⟩⟩ 0.0).writeAll (Store.insertions infections.reverse)

/-- The two stores enumerate the infections in different orders, and yet the same ground rules come
of them, and the same activation. -/
theorem outbreak_is_reproducible :
    annFirst.rows.keys = [annInfected, bobInfected] ∧
      bobFirst.rows.keys = [bobInfected, annInfected] ∧
      PartitionLayout.make [⟨0⟩] ⟨1⟩ ⟨2⟩ = .ok ⟨[⟨0⟩], ⟨1⟩, ⟨2⟩⟩ ∧
      infections.Perm infections.reverse ∧ (infections.map Prod.fst).Nodup ∧
      (∀ a ∈ outbreak, a.IsInternal) ∧
      ((start annFirst (.deferring 0.5)).after outbreak).work.rules =
        ((start bobFirst (.deferring 0.5)).after outbreak).work.rules ∧
      (((start annFirst (.deferring 0.5)).after outbreak).activate (contagionBase .text)).1 =
        (((start bobFirst (.deferring 0.5)).after outbreak).activate (contagionBase .text)).1 := by
  have hlayout : PartitionLayout.make [⟨0⟩] ⟨1⟩ ⟨2⟩ = .ok ⟨[⟨0⟩], ⟨1⟩, ⟨2⟩⟩ := rfl
  have hatoms : infections.Perm infections.reverse := infections.reverse_perm.symm
  have hkeys : (infections.map Prod.fst).Nodup := by decide
  have hactions : ∀ a ∈ outbreak, a.IsInternal := by
    intro a ha
    simp only [outbreak, List.mem_cons, List.not_mem_nil, or_false] at ha
    rcases ha with rfl | rfl | rfl <;> exact trivial
  obtain ⟨-, ⟨hrules, -⟩, -, hactivate⟩ := grounding_is_reproducible
    hlayout hatoms hkeys (.refl annFirst) (.refl bobFirst) hactions
    (mayBecome_after (start annFirst (.deferring 0.5)) outbreak) (mayBecome_after _ outbreak)
  exact ⟨rfl, rfl, hlayout, hatoms, hkeys, hactions, hrules, (hactivate _).1⟩

end Session

end RuleGrounding
