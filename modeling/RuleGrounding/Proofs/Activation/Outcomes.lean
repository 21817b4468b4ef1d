import RuleGrounding.Proofs.Activation.Effects
import RuleGrounding.Proofs.Activation.NewAnswers

/-!
# How activations end

Over all histories of a session under a deferring manager: an activation that succeeds
makes the eligible atoms real and leaves everything else, apart from what regrounding
adds. What it adds may be eligible itself and is left for the next activation. A
refusal by the store changes nothing, and any later failure leaves the atoms staged.
-/

namespace RuleGrounding

namespace Session

variable {x y : Session} {b : RuleBase} {s : Store} {threshold : Float} {actions : List Action}

/-- After any actions the instances are in order, and atoms are deferred as at the start. -/
theorem sound_and_deferring_after (hx : x = (start s (.deferring threshold)).after actions) :
    x.manager.Sound ∧ x.manager.policy = .deferring threshold := by
  have hkeeps := keeps_after (keeps_start s (.deferring threshold)) actions
  rw [← hx] at hkeeps
  exact ⟨hkeeps.sound, hkeeps.grows.policy⟩

/-- The eligible atoms are the lazy atoms, as the instances that they are, which have reached the
threshold. -/
theorem mem_eligible_iff (hx : x.manager.Sound) {a : Handle} :
    a ∈ x.eligible threshold ↔
      x.manager.lazy.find? a.key = some a ∧ threshold ≤ x.pool.value a := by
  rw [mem_eligible, hx.mem_lazy_values_iff]

theorem nodup_eligible (hx : x.manager.Sound) : (x.eligible threshold).Nodup :=
  (ascending_perm _ _).nodup_iff.mpr (hx.nodup_lazy_values.filter _)

/-- An activation finds nothing to do; or is refused by the store; or fails while it grounds rules,
with the atoms staged; or goes on from there by unstaging. -/
theorem activate_outcomes (hx : x.manager.Sound)
    (hpolicy : x.manager.policy = .deferring threshold) {result : Except ActivationFault Nat}
    (h : x.activate b = (result, y)) :
    (x.eligible threshold = [] ∧ result = .ok 0 ∧ y = x) ∨
      (∃ refusal, result = .error (.store refusal) ∧ y = x) ∨
      (∃ fault, result = .error fault ∧ (∀ refusal, fault ≠ .store refusal) ∧
        x.Activates (x.eligible threshold) x.store.layout.lazy y) ∨
      (x.eligible threshold ≠ [] ∧ result = .ok (x.eligible threshold).length ∧
        ∃ grounded, x.Activates (x.eligible threshold) x.store.layout.lazy grounded ∧
          ∃ ps, (∀ a ∈ x.eligible threshold, a.key.predicate ∈ ps) ∧
            y = (grounded.unstage ps).2) := by
  rcases activate_deferring_cases hpolicy h with hnothing | ⟨hsome, activated, hrun, rfl⟩
  · exact .inl hnothing
  · have hatoms : ∀ a ∈ x.eligible threshold, x.manager.lazy.find? a.key = some a :=
      fun a ha => ((mem_eligible_iff hx).mp ha).1
    rcases activates_of_activateAtoms hx hatoms hrun with ⟨refusal, rfl, rfl⟩ |
      ⟨fault, rfl, hfault, hactivates⟩ | ⟨rfl, hps, grounded, hactivates, rfl⟩
    · exact .inr (.inl ⟨refusal, rfl, rfl⟩)
    · exact .inr (.inr (.inl ⟨fault, rfl, hfault, hactivates⟩))
    · exact .inr (.inr (.inr ⟨hsome, rfl, grounded, hactivates, _, hps, rfl⟩))

/-- An activation that succeeds takes the eligible atoms over. -/
theorem takesOver_of_activate (hx : x.manager.Sound)
    (hpolicy : x.manager.policy = .deferring threshold) {n : Nat}
    (h : x.activate b = (.ok n, y)) : x.TakesOver (x.eligible threshold) y := by
  rcases activate_outcomes hx hpolicy h with ⟨hnone, -, rfl⟩ | ⟨refusal, hresult, -⟩ |
    ⟨fault, hresult, -⟩ | ⟨-, -, grounded, hactivates, ps, -, rfl⟩
  · rw [hnone]
    exact (Activates.refl y y.store.layout.write).toTakesOver
  · cases hresult
  · cases hresult
  · exact hactivates.toTakesOver.unstage ps

section Layout

variable {hs : List Handle}

/-- No action changes the roles of partitions. -/
theorem layout_perform (hx : x.work.Keeps (.fresh (.deferring threshold)) hs) (a : Action) :
    (x.perform a).store.layout = x.store.layout := by
  cases a with
  | resolve p args =>
    rw [perform]
    cases hr : x.resolve p args with
    | error fault => rfl
    | ok r =>
      obtain ⟨m, -, hy⟩ := resolve_eq_ok hr
      dsimp only
      rw [hy]
      rfl
  | setValue h value => rfl
  | ground r => rfl
  | groundResults r results => rfl
  | groundAll b => rfl
  | activate b =>
    rw [perform]
    cases hrun : x.activate b with
    | mk result y =>
      rcases activate_outcomes hx.sound hx.grows.policy hrun with ⟨-, -, rfl⟩ | ⟨-, -, rfl⟩ |
        ⟨-, -, -, hactivates⟩ | ⟨-, -, grounded, hactivates, ps, -, rfl⟩
      · rfl
      · rfl
      · exact hactivates.layout
      · exact (hactivates.toTakesOver.unstage ps).layout
  | insert k value p =>
    rw [perform, insert, Store.insert]
    cases x.store.insertFault? k value p <;> rfl
  | commit atoms p =>
    rw [perform]
    cases hcommit : x.store.commit atoms p with
    | error fault => rfl
    | ok store => exact (Store.commits_of_commit hcommit).2.layout
  | move p source =>
    rw [perform, moveToWrite, Store.moveToWrite]
    cases x.store.layout.contains source <;> rfl

/-- Nor do several actions. -/
theorem layout_after (hx : x.work.Keeps (.fresh (.deferring threshold)) hs)
    (actions : List Action) : (x.after actions).store.layout = x.store.layout := by
  induction actions generalizing x hs with
  | nil => rfl
  | cons a actions ih => exact (ih (keeps_perform hx a)).trans (layout_perform hx a)

end Layout

section Contagion

/-- Somebody is infected. -/
def infected : Atom := ⟨.standard "Infected" [.text], [.var ⟨"A"⟩]⟩

/-- Somebody is contagious; how persons are written there is left open. -/
def contagious (t : ArgumentType) : Atom := ⟨.standard "Contagious" [t], [.var ⟨"A"⟩]⟩

/-- Whoever is infected is contagious. -/
def contagion (t : ArgumentType) : LogicalRule where
  name := "contagion"
  formula := .implies (.atom infected) (.atom (contagious t))
  clause := [.positive infected, .negative (contagious t)]
  weight := none

/-- The base of this rule. -/
def contagionBase (t : ArgumentType) : RuleBase := ⟨[.logical (contagion t)]⟩

/-- That Ann is infected. -/
def annInfected : GroundKey := ⟨.standard "Infected" [.text], [.text "Ann"], rfl⟩

/-- That Ann is contagious. -/
def annContagious : GroundKey := ⟨.standard "Contagious" [.text], [.text "Ann"], rfl⟩

/-- A store without atoms, in which what is not stored is half true. -/
def undecidedStore : Store := .empty ⟨[⟨0⟩], ⟨1⟩, ⟨2⟩⟩ 0.5

/-- The infection of Ann is resolved and raised. -/
def testActions : List Action := [
  .resolve annInfected.predicate annInfected.args,
  .setValue ⟨annInfected, 0⟩ 0.9]

/-- The session after these actions. -/
def tested : Session := (start undecidedStore (.deferring 0.5)).after testActions

/-- The session after the infection is staged. -/
def testedStaged : Session where
  store := undecidedStore.put annInfected 0.9 ⟨2⟩
  work := { tested.work with
    manager := tested.manager.adopt [⟨annInfected, 0⟩] (.unobserved ⟨2⟩) }

/-- What the rule is grounded to then. -/
def contagionWork : Workspace :=
  (((contagion .text).groundResults testedStaged.store
    ⟨[⟨"A"⟩], [[.text "Ann"]]⟩).runOn testedStaged.work).2

/-- The session after the infection is activated. -/
def infectious : Session := (unstage ⟨testedStaged.store, contagionWork⟩ [infected.predicate]).2

private theorem eligible_tested : tested.eligible 0.5 = [⟨annInfected, 0⟩] :=
  List.mergeSort_singleton (⟨annInfected, 0⟩ : Handle)

private theorem stage_tested : tested.stage [⟨annInfected, 0⟩] = .ok testedStaged := rfl

private theorem evaluateUnion_contagion (t : ArgumentType) :
    Query.evaluateUnion testedStaged.store ((contagion t).stagedQueries [infected.predicate]) =
      .ok ⟨[⟨"A"⟩], [[.text "Ann"]]⟩ := by
  have hrows : testedStaged.store.candidates infected ∅ (fun p => decide (p = ⟨2⟩)) =
      [[.text "Ann"]] :=
    List.mergeSort_singleton [Constant.text "Ann"]
  have hgenerators : ((contagion t).groundingQuery.target 0).orderedGenerators
      testedStaged.store = [(infected, [[.text "Ann"]])] := by
    rw [Query.orderedGenerators_of_generators_eq (i := 0) (l := .positive infected) rfl]
    exact congrArg (fun rows => [(_, rows)]) hrows
  have heval : ((contagion t).groundingQuery.target 0).evaluate testedStaged.store =
      .ok ⟨[⟨"A"⟩], [[.text "Ann"]]⟩ := by
    rw [Query.evaluate_eq_ok_iff]
    refine ⟨by cases t <;> decide, ?_⟩
    rw [Query.answers, Query.solutions, hgenerators]
    rfl
  change Query.evaluateUnion testedStaged.store [(contagion t).groundingQuery.target 0] = _
  rw [Query.evaluateUnion, heval]
  rfl

private theorem groundStaged_contagion (t : ArgumentType) :
    (contagion t).groundStaged testedStaged.store [infected.predicate] testedStaged.work =
      let (result, w) := ((contagion t).groundResults testedStaged.store
        ⟨[⟨"A"⟩], [[.text "Ann"]]⟩).runOn testedStaged.work
      (result.mapError .grounding, w) := by
  rw [LogicalRule.groundStaged, evaluateUnion_contagion]
  rfl

/-- Activating the infection grounds the rule for Ann and goes on accordingly. -/
private theorem activate_tested (t : ArgumentType) :
    tested.activate (contagionBase t) =
      match (contagion t).groundStaged testedStaged.store [infected.predicate]
        testedStaged.work with
      | (.ok _, w) => (.ok 1, (unstage ⟨testedStaged.store, w⟩ [infected.predicate]).2)
      | (.error fault, w) => (.error fault, ⟨testedStaged.store, w⟩) := by
  have hpolicy : tested.manager.policy = .deferring 0.5 := rfl
  have hpredicates : distinct (([(⟨annInfected, 0⟩ : Handle)].map fun h =>
      h.key.predicate).filter Predicate.isStandard) = [infected.predicate] := rfl
  have hrules : (Subscriptions.ofRules (contagionBase t)).rulesFor [infected.predicate] = [0] := by
    cases t <;> rfl
  rw [activate, hpolicy, Policy.threshold?]
  dsimp only
  rw [eligible_tested, activateAtoms, stage_tested]
  dsimp only
  rw [hpredicates, hrules, RuleBase.groundStaged, contagionBase, List.getElem?_cons_zero]
  dsimp only
  cases (contagion t).groundStaged testedStaged.store [infected.predicate] testedStaged.work with
  | mk result w =>
    cases result with
    | error fault => rfl
    | ok n => exact Prod.ext rfl rfl

theorem activate_tested_text :
    tested.activate (contagionBase .text) = (.ok 1, infectious) := by
  rw [activate_tested, groundStaged_contagion]
  rfl

/-- Why the rule cannot be grounded for Ann if persons are written as numbers there. -/
def illTyped : ActivationFault :=
  .grounding (.lookup (.invalidKey
    (.argumentType "Contagious" 0 ArgumentType.integer.name (Constant.text "Ann").toText)))

theorem activate_tested_integer :
    tested.activate (contagionBase .integer) = (.error illTyped, testedStaged) := by
  rw [activate_tested, groundStaged_contagion]
  rfl

end Contagion

/-- Over a well-formed layout, an activation that succeeds when no atom is staged does this and
nothing else: the lazy atoms that have reached the threshold, which it counts, come to lie in the
write partition, no atom is staged afterwards, and if there are none of them nothing changes. -/
theorem activates_of_activate_eq_ok {read : List PartitionId} {write lazy : PartitionId}
    (hlayout : PartitionLayout.make read write lazy = .ok s.layout)
    (hx : x = (start s (.deferring threshold)).after actions) (hempty : x.store.LazyEmpty)
    {n : Nat} (h : x.activate b = (.ok n, y)) :
    (∀ a, a ∈ x.eligible threshold ↔
      x.manager.lazy.find? a.key = some a ∧ threshold ≤ x.pool.value a) ∧
    (x.eligible threshold).Nodup ∧ n = (x.eligible threshold).length ∧
    x.Activates (x.eligible threshold) x.store.layout.write y ∧ y.store.LazyEmpty ∧
    (n = 0 → y = x) := by
  obtain ⟨hsound, hpolicy⟩ := sound_and_deferring_after hx
  have hapart : x.store.layout.lazy ≠ x.store.layout.write := by
    rw [hx, layout_after (keeps_start s (.deferring threshold))]
    exact PartitionLayout.lazy_ne_write_of_make hlayout
  refine ⟨fun a => mem_eligible_iff hsound, nodup_eligible hsound, ?_⟩
  rcases activate_outcomes hsound hpolicy h with ⟨hnone, hresult, rfl⟩ | ⟨refusal, hresult, -⟩ |
    ⟨fault, hresult, -⟩ | ⟨hsome, hresult, grounded, hactivates, ps, hps, rfl⟩
  · cases hresult
    rw [hnone]
    exact ⟨rfl, .refl y _, hempty, fun _ => rfl⟩
  · cases hresult
  · cases hresult
  · cases hresult
    obtain ⟨hdone, hunstaged⟩ := hactivates.unstage hapart hempty hps
    exact ⟨rfl, hdone, hunstaged, fun hzero => absurd (List.length_eq_zero_iff.mp hzero) hsome⟩

/-- Activating the infection of Ann has moved it on and has deferred that she is contagious. -/
theorem infectious_is_activated :
    PartitionLayout.make [⟨0⟩] ⟨1⟩ ⟨2⟩ = .ok undecidedStore.layout ∧
      tested.store.LazyEmpty ∧ tested.activate (contagionBase .text) = (.ok 1, infectious) ∧
      tested.Activates [⟨annInfected, 0⟩] ⟨1⟩ infectious ∧
      infectious.store.rows.find? annInfected = some ⟨0.9, ⟨1⟩⟩ ∧
      infectious.manager.lazy.find? annContagious = some ⟨annContagious, 1⟩ ∧
      infectious.store.LazyEmpty := by
  have hlayout : PartitionLayout.make [⟨0⟩] ⟨1⟩ ⟨2⟩ = .ok undecidedStore.layout := rfl
  have htested : tested = (start undecidedStore (.deferring 0.5)).after testActions := rfl
  have hempty : tested.store.LazyEmpty := fun k stored hk => by cases hk
  obtain ⟨-, -, -, hactivates, hunstaged, -⟩ :=
    activates_of_activate_eq_ok hlayout htested hempty activate_tested_text
  rw [eligible_tested] at hactivates
  exact ⟨hlayout, hempty, activate_tested_text, hactivates, rfl, rfl, hunstaged⟩

/-- After an activation that succeeds none of the atoms that it has activated is lazy. A lazy atom
that has reached the threshold can only have come from the grounding of rules in it, with the
default value; so there is none if the default value is below the threshold. -/
theorem lazy_of_activate_eq_ok (hx : x = (start s (.deferring threshold)).after actions) {n : Nat}
    (h : x.activate b = (.ok n, y)) :
    (∀ a ∈ x.eligible threshold, a.key ∉ y.manager.lazy.keys) ∧
    (∀ k a, y.manager.lazy.find? k = some a → threshold ≤ y.pool.value a →
      x.manager.instance? k = none ∧ x.store.get? k = none ∧
        y.view a = ⟨k, x.store.defaultValue, .lazy⟩) ∧
    (¬ threshold ≤ x.store.defaultValue →
      ∀ k a, y.manager.lazy.find? k = some a → ¬ threshold ≤ y.pool.value a) := by
  obtain ⟨hsound, hpolicy⟩ := sound_and_deferring_after hx
  have htakes := takesOver_of_activate hsound hpolicy h
  have hnew : ∀ k a, y.manager.lazy.find? k = some a → threshold ≤ y.pool.value a →
      x.manager.instance? k = none ∧ x.store.get? k = none ∧
        y.view a = ⟨k, x.store.defaultValue, .lazy⟩ := by
    intro k a hk hvalue
    refine (htakes.deferred k a hk).resolve_left fun ⟨hold, hnot⟩ => hnot ?_
    -- An old lazy atom that has reached the threshold was eligible.
    have hkey : a.key = k := hsound.filed k a (Manager.instance?_of_lazy hold)
    rw [htakes.values a (hsound.gives_of_lazy hold)] at hvalue
    exact (mem_eligible_iff hsound).mpr ⟨hkey.symm ▸ hold, hvalue⟩
  refine ⟨fun a ha => FiniteMap.find?_eq_none_iff.mp (htakes.taken a ha), hnew,
    fun hdefault k a hk hvalue => hdefault ?_⟩
  obtain ⟨-, -, hview⟩ := hnew k a hk hvalue
  have hdefaulted : y.pool.value a = x.store.defaultValue := congrArg GroundAtom.value hview
  rwa [hdefaulted] at hvalue

/-- That Ann is contagious has reached the threshold as soon as it is deferred, and is left lazy by
the activation that defers it. -/
theorem contagious_left_lazy :
    tested.activate (contagionBase .text) = (.ok 1, infectious) ∧
      annInfected ∉ infectious.manager.lazy.keys ∧
      infectious.manager.lazy.find? annContagious = some ⟨annContagious, 1⟩ ∧
      0.5 ≤ infectious.pool.value ⟨annContagious, 1⟩ ∧
      tested.manager.instance? annContagious = none ∧
      infectious.view ⟨annContagious, 1⟩ = ⟨annContagious, 0.5, .lazy⟩ := by
  have htested : tested = (start undecidedStore (.deferring 0.5)).after testActions := rfl
  have hlazy : infectious.manager.lazy.find? annContagious = some ⟨annContagious, 1⟩ := rfl
  have hvalue : 0.5 ≤ infectious.pool.value ⟨annContagious, 1⟩ := by decide
  obtain ⟨htaken, hnew, -⟩ := lazy_of_activate_eq_ok htested activate_tested_text
  obtain ⟨hnone, -, hview⟩ := hnew annContagious ⟨annContagious, 1⟩ hlazy hvalue
  have heligible : (⟨annInfected, 0⟩ : Handle) ∈ tested.eligible 0.5 := by
    rw [eligible_tested]
    exact List.mem_singleton_self _
  exact ⟨activate_tested_text, htaken _ heligible, hlazy, hvalue, hnone, hview⟩

/-- An activation that fails either is refused by the store and changes nothing, or fails while it
grounds rules. Then the eligible atoms are stored in the lazy partition and taken over, and all
else that is stored, the other instances and the old ground rules are as they were. -/
theorem activates_of_activate_eq_error
    (hx : x = (start s (.deferring threshold)).after actions) {fault : ActivationFault}
    (h : x.activate b = (.error fault, y)) :
    ((∃ refusal, fault = .store refusal) ∧ y = x) ∨
      ((∀ refusal, fault ≠ .store refusal) ∧
        x.Activates (x.eligible threshold) x.store.layout.lazy y ∧
        ∀ a, x.manager.Gives a → a ∉ x.eligible threshold → y.view a = x.view a) := by
  obtain ⟨hsound, hpolicy⟩ := sound_and_deferring_after hx
  rcases activate_outcomes hsound hpolicy h with ⟨-, hresult, -⟩ | ⟨refusal, hresult, rfl⟩ |
    ⟨stop, hresult, hstop, hactivates⟩ | ⟨-, hresult, -⟩
  · cases hresult
  · cases hresult
    exact .inl ⟨⟨refusal, rfl⟩, rfl⟩
  · cases hresult
    refine .inr ⟨hstop, hactivates, ?_⟩
    intro a ha hnot
    have hvalue : y.pool.value a = x.pool.value a := hactivates.values a ha
    have hstate : y.pool.state a = x.pool.state a := (hactivates.otherStates a ha hnot).eq
    exact AtomPool.view_congr hvalue hstate
  · cases hresult

/-- If persons are written as numbers where they are contagious, the activation of Ann's infection
fails when the rule is grounded. -/
theorem testedStaged_is_staged :
    tested.activate (contagionBase .integer) = (.error illTyped, testedStaged) ∧
      tested.Activates [⟨annInfected, 0⟩] ⟨2⟩ testedStaged := by
  have htested : tested = (start undecidedStore (.deferring 0.5)).after testActions := rfl
  rcases activates_of_activate_eq_error htested activate_tested_integer with
    ⟨⟨refusal, hfault⟩, -⟩ | ⟨-, hactivates, -⟩
  · cases hfault
  · rw [eligible_tested] at hactivates
    exact ⟨activate_tested_integer, hactivates⟩

/-- Such an activation is not undone: the rule is one that may be built, the activation fails, and
yet the infection of Ann, which was lazy and not stored, lies in the lazy partition and is not
lazy any more, so that the next activation finds nothing to do. -/
theorem failed_activation_not_undone :
    LogicalRule.make "contagion" (.implies (.atom infected) (.atom (contagious .integer))) none =
        .ok (contagion .integer) ∧
      tested.activate (contagionBase .integer) = (.error illTyped, testedStaged) ∧
      tested.store.get? annInfected = none ∧
      testedStaged.store.get? annInfected = some ⟨0.9, ⟨2⟩⟩ ∧
      annInfected ∈ tested.manager.lazy.keys ∧ annInfected ∉ testedStaged.manager.lazy.keys ∧
      annInfected ∉ tested.manager.known.keys ∧ annInfected ∈ testedStaged.manager.known.keys ∧
      tested.view ⟨annInfected, 0⟩ = ⟨annInfected, 0.9, .lazy⟩ ∧
      testedStaged.view ⟨annInfected, 0⟩ = ⟨annInfected, 0.9, .unobserved ⟨2⟩⟩ ∧
      testedStaged.activate (contagionBase .integer) = (.ok 0, testedStaged) := by
  refine ⟨rfl, activate_tested_integer, rfl, rfl, List.mem_singleton_self _, List.not_mem_nil,
    List.not_mem_nil, List.mem_singleton_self _, rfl, rfl, ?_⟩
  have hnothing : testedStaged.eligible 0.5 = [] := List.mergeSort_nil
  have hpolicy : testedStaged.manager.policy = .deferring 0.5 := rfl
  rw [activate, hpolicy, Policy.threshold?]
  dsimp only
  rw [hnothing]
  rfl

end Session

end RuleGrounding
