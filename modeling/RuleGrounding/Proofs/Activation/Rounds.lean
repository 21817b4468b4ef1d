import RuleGrounding.Proofs.Activation.Effects
import RuleGrounding.Proofs.Activation.Regrounding

/-!
# Rounds of activations

A session that grounds a base of logical rules and then activates atoms round by
round stays up to date: at any time its ground rules are those of a full grounding
over the store.
-/

namespace RuleGrounding

namespace Session

/-- What may happen to the atoms between two activations: they are resolved, and standard ones
are given truth values. -/
inductive Touched (x : Session) : Session → Prop where
  /-- Nothing has happened. -/
  | refl : Touched x x
  /-- An atom is resolved, or is refused. -/
  | resolve {y : Session} (predicate : Predicate) (args : List Constant) (h : Touched x y) :
    Touched x (y.perform (.resolve predicate args))
  /-- An instance of the session that is a standard atom is given a value. -/
  | setValue {y : Session} {a : Handle} (value : Float) (h : Touched x y)
    (hgives : y.manager.Gives a) (hstandard : a.key.predicate.isStandard = true) :
    Touched x (y.setValue a value)

/-- Rounds of touching atoms and then activating lazy ones. -/
inductive Rounds (b : RuleBase) (x : Session) : Session → Prop where
  /-- There has been no round. -/
  | refl : Rounds b x x
  /-- Another round succeeds. -/
  | round {y touched z : Session} {n : Nat} (h : Rounds b x y) (htouched : Touched y touched)
    (hactivate : touched.activate b = (.ok n, z)) : Rounds b x z

/-- A session that is ready for activations: its ground rules are those of a full grounding, and
no atom is staged. -/
structure UpToDate (b : RuleBase) (x : Session) : Prop where
  /-- Every key is resolved, and functional atoms have their computed values. -/
  computes : x.manager.Computes
  /-- The staging partition is not the target partition. -/
  apart : x.store.layout.lazy ≠ x.store.layout.write
  /-- No atom is staged. -/
  unstaged : x.store.LazyEmpty
  /-- The ground rules are those of a full grounding. -/
  grounded : b.GroundedOver x.store x.work.rules

variable {b : RuleBase} {x y z : Session}

/-- Grounding a base of logical rules in a new session brings it up to date. -/
theorem upToDate_of_run_ground (hb : b.IsLogical) {s : Store}
    (hapart : s.layout.lazy ≠ s.layout.write) (hempty : s.LazyEmpty) {threshold : Float} {n : Nat}
    (hrun : (start s (.deferring threshold)).run b.ground = (.ok n, x)) :
    UpToDate b x := by
  obtain ⟨w, hground, rfl⟩ := run_eq_ok_iff.mp hrun
  obtain ⟨hgroundable, hcomputes, hemits⟩ :=
    Rule.emits_of_groundAll (Manager.computes_fresh threshold) hb.logical hground
  exact ⟨hcomputes, hapart, hempty, hgroundable, .of_eq hemits⟩

/-- Touching atoms leaves the store and the ground rules. -/
theorem Touched.upToDate (h : Touched x y) (hx : UpToDate b x) : UpToDate b y := by
  induction h with
  | refl => exact hx
  | @resolve y p args _ ih =>
    rw [perform]
    cases hr : y.resolve p args with
    | error fault => exact ih
    | ok r =>
      obtain ⟨m, hm, hy⟩ := resolve_eq_ok hr
      obtain ⟨k, -, hk⟩ := Manager.resolve_eq_ok_iff.mp hm
      obtain ⟨a, m', hk', hcomputes, -⟩ := ih.computes.resolveKey y.store k
      rw [hk] at hk'
      obtain ⟨-, rfl⟩ := Prod.mk.inj (Except.ok.inj hk')
      dsimp only
      rw [hy]
      exact ⟨hcomputes, ih.apart, ih.unstaged, ih.grounded⟩
  | setValue value _ hgives hstandard ih =>
    exact ⟨ih.computes.setValue hgives hstandard value, ih.apart, ih.unstaged, ih.grounded⟩

section Stages

variable {atoms : List Handle}

/-- If no atom is staged before, staging stages the given atoms. -/
theorem stages_of_stage (hempty : x.store.LazyEmpty) (h : x.stage atoms = .ok y) :
    x.store.Stages y.store (atoms.map Handle.key) := by
  obtain ⟨store, hcommit, rfl⟩ := stage_eq_ok h
  have hstages := Store.stages_of_commit hempty hcommit
  rwa [List.map_map] at hstages

/-- All predicates of staged atoms are standard ones. -/
theorem mem_standardPredicates_iff {s s' : Store} (h : s.Stages s' (atoms.map Handle.key))
    (p : Predicate) :
    p ∈ standardPredicates atoms ↔ p ∈ (atoms.map Handle.key).map GroundKey.predicate := by
  rw [standardPredicates, mem_distinct, List.mem_filter, List.map_map]
  refine and_iff_left_of_imp fun hp => ?_
  obtain ⟨a, ha, rfl⟩ := List.mem_map.mp hp
  exact h.standard _ (List.mem_map.mpr ⟨a, ha, rfl⟩)

/-- Unstaging goes on computing. -/
theorem computes_unstage (hx : x.manager.Computes) (ps : List Predicate) :
    (x.unstage ps).2.manager.Computes := by
  induction ps generalizing x with
  | nil => exact hx
  | cons p ps ih =>
    obtain ⟨n, store, -, -, -, hunstage⟩ := x.exists_unstage_cons p ps
    rw [hunstage]
    exact ih (x := ⟨store, _⟩) (hx.promote p x.store.layout.lazy x.store.layout.write)

end Stages

/-- Activating atoms with success keeps a session up to date. -/
theorem UpToDate.activateAtoms (hb : b.IsLogical) (hx : UpToDate b x) {atoms : List Handle}
    (hatoms : ∀ h ∈ atoms, x.manager.Gives h) (h : x.activateAtoms b atoms = (.ok (), y)) :
    UpToDate b y := by
  rcases activateAtoms_cases h with ⟨fault, -, he, -⟩ |
    ⟨staged, ground, w, hstage, hground, ⟨fault, -, he, -⟩ | ⟨n, rfl, hunstage⟩⟩
  · cases he
  · cases he
  · have hstages := stages_of_stage hx.unstaged hstage
    have hpredicates := mem_standardPredicates_iff hstages
    obtain ⟨store, -, rfl⟩ := stage_eq_ok hstage
    obtain ⟨hcomputes, hgrounded⟩ := RuleBase.GroundedOver.of_groundStaged hb hstages hpredicates
      hx.unstaged (w := { x.work with manager := x.manager.adopt atoms _ }) hx.grounded
      (hx.computes.adopt hatoms _) hground
    have hapart : store.layout.lazy ≠ store.layout.write := by
      rw [hstages.layout]
      exact hx.apart
    have hunstages := unstages_unstage ⟨store, w⟩ hapart (standardPredicates atoms)
    have hcomputes' := computes_unstage (x := ⟨store, w⟩) hcomputes (standardPredicates atoms)
    obtain ⟨-, -, hrules, -⟩ := promotes_unstage ⟨store, w⟩ (standardPredicates atoms)
    rw [hunstage] at hunstages hcomputes' hrules
    refine ⟨hcomputes', ?_, hunstages.lazyEmpty hapart fun key stored hkey hlazy => ?_, ?_⟩
    · rw [hunstages.layout]
      exact hapart
    · refine (hpredicates _).mpr (List.mem_map.mpr ⟨key, ?_, rfl⟩)
      by_contra hnot
      rw [hstages.others key hnot] at hkey
      exact hx.unstaged key stored hkey (hlazy.trans (congrArg _ hstages.layout))
    · rw [hrules]
      exact hgrounded.of_stores hb hunstages.stores_iff

/-- Activation with success keeps a session up to date. -/
theorem UpToDate.activate (hb : b.IsLogical) (hx : UpToDate b x) {n : Nat}
    (h : x.activate b = (.ok n, y)) : UpToDate b y := by
  rcases activate_cases h with ⟨-, rfl⟩ | ⟨threshold, activated, -, hrun, hresult⟩
  · exact hx
  · obtain ⟨_, rfl, -⟩ := map_eq_ok_iff.mp hresult.symm
    exact hx.activateAtoms hb (fun a ha => gives_of_mem_eligible hx.computes.sound ha) hrun

/-- Rounds keep a session up to date. -/
theorem Rounds.upToDate (hb : b.IsLogical) (h : Rounds b x y) (hx : UpToDate b x) :
    UpToDate b y := by
  induction h with
  | refl => exact hx
  | round _ htouched hactivate ih => exact (htouched.upToDate ih).activate hb hactivate

/-- The full grounding over the store of a session that is up to date succeeds and has the ground
rules of the session. -/
theorem UpToDate.run_ground (hb : b.IsLogical) (hx : UpToDate b x) (threshold : Float) :
    ∃ n z, (start x.store (.deferring threshold)).run b.ground = (.ok n, z) ∧
      (x.work.rules.map GroundRule.outline).Perm (z.work.rules.map GroundRule.outline) := by
  have hfresh := Manager.computes_fresh threshold
  obtain ⟨n, w, hground⟩ := Rule.groundAll_of_groundable
    (w := (start x.store (.deferring threshold)).work) hfresh hx.grounded.groundable
  obtain ⟨-, -, hemits⟩ := Rule.emits_of_groundAll hfresh hb.logical hground
  refine ⟨n, ⟨x.store, w⟩, run_eq_ok_iff.mpr ⟨w, hground, rfl⟩, ?_⟩
  exact hx.grounded.outlines.trans (.of_eq hemits.symm)

/-- A session that grounds a base of logical rules over a store without staged atoms, and then
goes through rounds of resolving atoms, setting standard ones and activating, ends with the ground
rules that a full grounding produces over the final store: none is missing, none is there twice,
and none is there besides. -/
theorem rounds_perm_full_grounding {s : Store} {read : List PartitionId}
    {write lazy : PartitionId} (hlayout : PartitionLayout.make read write lazy = .ok s.layout)
    (hempty : s.atomsIn s.layout.lazy = []) (hb : b.IsLogical) {threshold : Float} {n : Nat}
    (hrun : (start s (.deferring threshold)).run b.ground = (.ok n, x)) (hrounds : Rounds b x y)
    (threshold' : Float) :
    ∃ n' z, (start y.store (.deferring threshold')).run b.ground = (.ok n', z) ∧
      (y.work.rules.map GroundRule.outline).Perm (z.work.rules.map GroundRule.outline) := by
  have hapart := PartitionLayout.lazy_ne_write_of_make hlayout
  have hx := upToDate_of_run_ground hb hapart (Store.lazyEmpty_of_atomsIn hempty) hrun
  exact (hrounds.upToDate hb hx).run_ground hb threshold'

/-- Who meets whom. -/
def meetsRelation : Predicate := .standard "Meets" [.integer, .integer]

/-- That the first person meets the second. -/
def meetingKey : GroundKey := ⟨meetsRelation, [.integer 1, .integer 2], rfl⟩

/-- That the second person meets the first. -/
def reverseKey : GroundKey := ⟨meetsRelation, [.integer 2, .integer 1], rfl⟩

/-- The first person is known to meet the second. -/
def meetsStore : Store where
  rows := .ofList [(meetingKey, ⟨1.0, ⟨0⟩⟩)]
  layout := ⟨[⟨0⟩], ⟨1⟩, ⟨2⟩⟩
  defaultValue := 0.0

/-- Somebody meets somebody. -/
def meetsAtom : Atom := ⟨meetsRelation, [.var ⟨"A"⟩, .var ⟨"B"⟩]⟩

/-- The same with the persons exchanged. -/
def reverseAtom : Atom := ⟨meetsRelation, [.var ⟨"B"⟩, .var ⟨"A"⟩]⟩

/-- Whoever meets somebody is met by that person. -/
def meetsRule : LogicalRule where
  name := "symmetry"
  formula := .implies (.atom meetsAtom) (.atom reverseAtom)
  clause := [.positive meetsAtom, .negative reverseAtom]
  weight := none

/-- The base of this rule. -/
def meetsBase : RuleBase := ⟨[.logical meetsRule]⟩

/-- The session after the rule is grounded for the known meeting, which makes the reverse one
lazy. -/
def metOnce : Session :=
  ((start meetsStore (.deferring 0.5)).run fun s =>
    meetsRule.groundResults s ⟨[⟨"A"⟩, ⟨"B"⟩], [[.integer 1, .integer 2]]⟩).2

/-- The session after the reverse meeting is given a value. -/
def metRaised : Session := metOnce.setValue ⟨reverseKey, 1⟩ 0.9

/-- The session after the reverse meeting is staged. -/
def metStaged : Session where
  store := meetsStore.put reverseKey 0.9 ⟨2⟩
  work := { metRaised.work with
    manager := metRaised.manager.adopt [⟨reverseKey, 1⟩] (.unobserved ⟨2⟩) }

/-- What the rule is grounded to after that, for the staged meeting. -/
def metWork : Workspace :=
  ((meetsRule.groundResults metStaged.store
    ⟨[⟨"A"⟩, ⟨"B"⟩], [[.integer 2, .integer 1]]⟩).runOn metStaged.work).2

/-- The session after the reverse meeting is activated. -/
def metBoth : Session := (unstage ⟨metStaged.store, metWork⟩ [meetsRelation]).2

/-- The first grounding produces the ground clause of the known meeting. -/
theorem run_meetsBase :
    (start meetsStore (.deferring 0.5)).run meetsBase.ground = (.ok 1, metOnce) := by
  have hrows : meetsStore.candidates meetsAtom ∅ meetsStore.layout.contains =
      [[.integer 1, .integer 2]] :=
    List.mergeSort_singleton [Constant.integer 1, .integer 2]
  have hgenerators : meetsRule.groundingQuery.orderedGenerators meetsStore =
      [(meetsAtom, [[.integer 1, .integer 2]])] := by
    rw [Query.orderedGenerators_of_generators_eq (i := 0) (l := .positive meetsAtom) rfl]
    exact congrArg (fun rows => [(_, rows)]) hrows
  have heval : meetsRule.groundingQuery.evaluate meetsStore =
      .ok ⟨[⟨"A"⟩, ⟨"B"⟩], [[.integer 1, .integer 2]]⟩ := by
    rw [Query.evaluate_eq_ok_iff]
    refine ⟨by decide, ?_⟩
    rw [Query.answers, Query.solutions, hgenerators]
    rfl
  have hground : meetsRule.ground meetsStore = meetsRule.groundResults meetsStore
      ⟨[⟨"A"⟩, ⟨"B"⟩], [[.integer 1, .integer 2]]⟩ := by
    rw [LogicalRule.ground, Grounding.query, heval]
    rfl
  refine run_eq_ok_iff.mpr ⟨metOnce.work, ?_, rfl⟩
  change (meetsRule.ground meetsStore >>= _).runOn _ = _
  rw [hground]
  rfl

private theorem groundStaged_meetsRule :
    meetsRule.groundStaged metStaged.store [meetsRelation] metStaged.work = (.ok 1, metWork) := by
  have hrows : metStaged.store.candidates meetsAtom ∅ (fun p => decide (p = ⟨2⟩)) =
      [[.integer 2, .integer 1]] :=
    List.mergeSort_singleton [Constant.integer 2, .integer 1]
  have hgenerators : (meetsRule.groundingQuery.target 0).orderedGenerators metStaged.store =
      [(meetsAtom, [[.integer 2, .integer 1]])] := by
    rw [Query.orderedGenerators_of_generators_eq (i := 0) (l := .positive meetsAtom) rfl]
    exact congrArg (fun rows => [(_, rows)]) hrows
  have heval : (meetsRule.groundingQuery.target 0).evaluate metStaged.store =
      .ok ⟨[⟨"A"⟩, ⟨"B"⟩], [[.integer 2, .integer 1]]⟩ := by
    rw [Query.evaluate_eq_ok_iff]
    refine ⟨by decide, ?_⟩
    rw [Query.answers, Query.solutions, hgenerators]
    rfl
  have hunion : Query.evaluateUnion metStaged.store (meetsRule.stagedQueries [meetsRelation]) =
      .ok ⟨[⟨"A"⟩, ⟨"B"⟩], [[.integer 2, .integer 1]]⟩ := by
    change Query.evaluateUnion metStaged.store [meetsRule.groundingQuery.target 0] = _
    rw [Query.evaluateUnion, heval]
    rfl
  rw [LogicalRule.groundStaged, hunion]
  rfl

private theorem activate_metRaised : metRaised.activate meetsBase = (.ok 1, metBoth) := by
  have hrules : (Subscriptions.ofRules meetsBase).rulesFor [meetsRelation] = [0] := rfl
  have hbase : meetsBase.groundStaged metStaged.store [meetsRelation] [0] metStaged.work =
      (.ok 1, metWork) := by
    rw [RuleBase.groundStaged, meetsBase, List.getElem?_cons_zero]
    dsimp only
    rw [groundStaged_meetsRule]
    rfl
  have hstage : metRaised.stage [⟨reverseKey, 1⟩] = .ok metStaged := rfl
  have hpredicates : distinct (([(⟨reverseKey, 1⟩ : Handle)].map fun h =>
      h.key.predicate).filter Predicate.isStandard) = [meetsRelation] := rfl
  have hatoms : metRaised.activateAtoms meetsBase [⟨reverseKey, 1⟩] =
      unstage ⟨metStaged.store, metWork⟩ [meetsRelation] := by
    rw [Session.activateAtoms, hstage]
    dsimp only
    rw [hpredicates, hrules, hbase]
  have heligible : metRaised.eligible 0.5 = [⟨reverseKey, 1⟩] :=
    List.mergeSort_singleton (⟨reverseKey, 1⟩ : Handle)
  have hpolicy : metRaised.manager.policy = .deferring 0.5 := rfl
  rw [Session.activate, hpolicy, Policy.threshold?]
  dsimp only
  rw [heligible, hatoms]
  exact Prod.ext rfl rfl

/-- Activating the reverse meeting adds its ground clause, and then both are there that a full
grounding produces. -/
theorem metBoth_perm_full_grounding :
    PartitionLayout.make [⟨0⟩] ⟨1⟩ ⟨2⟩ = .ok meetsStore.layout ∧
      meetsStore.atomsIn meetsStore.layout.lazy = [] ∧ meetsBase.IsLogical ∧
      (start meetsStore (.deferring 0.5)).run meetsBase.ground = (.ok 1, metOnce) ∧
      Rounds meetsBase metOnce metBoth ∧
      metBoth.work.rules.map GroundRule.outline =
        [⟨"symmetry", none, [reverseKey], [meetingKey]⟩,
          ⟨"symmetry", none, [meetingKey], [reverseKey]⟩] ∧
      ∃ n z, (start metBoth.store (.deferring 0.5)).run meetsBase.ground = (.ok n, z) ∧
        (metBoth.work.rules.map GroundRule.outline).Perm
          (z.work.rules.map GroundRule.outline) := by
  have hlayout : PartitionLayout.make [⟨0⟩] ⟨1⟩ ⟨2⟩ = .ok meetsStore.layout := rfl
  have hempty : meetsStore.atomsIn meetsStore.layout.lazy = [] := rfl
  have hb : meetsBase.IsLogical := by
    intro rule hrule
    refine ⟨meetsRule, List.mem_singleton.mp hrule, ?_⟩
    change ∀ l ∈ meetsRule.clause, l.atom.args.length = l.atom.predicate.arity
    decide
  have hraised : Touched metOnce metRaised := .setValue 0.9 .refl rfl rfl
  have hrounds : Rounds meetsBase metOnce metBoth := .round .refl hraised activate_metRaised
  exact ⟨hlayout, hempty, hb, run_meetsBase, hrounds, rfl,
    rounds_perm_full_grounding hlayout hempty hb run_meetsBase hrounds 0.5⟩

end Session

end RuleGrounding
