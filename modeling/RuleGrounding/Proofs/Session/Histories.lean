import RuleGrounding.Proofs.Activation.Stages
import RuleGrounding.Proofs.Grounding.Instances

/-!
# Histories of sessions

A session goes through actions, of which some fail and some hand out instances.
Every action keeps the instances of the manager, whatever else it does.
-/

namespace RuleGrounding

/-- What may happen in a session. -/
inductive Action where
  /-- Resolve an atom. -/
  | resolve (predicate : Predicate) (args : List Constant)
  /-- Give an instance a truth value. -/
  | setValue (h : Handle) (value : Float)
  /-- Ground a rule for every answer to its query. -/
  | ground (r : Rule)
  /-- Ground a rule for given rows. -/
  | groundResults (r : Rule) (results : ResultList)
  /-- Ground a rule base. -/
  | groundAll (b : RuleBase)
  /-- Activate lazy atoms and ground the rules that they affect. -/
  | activate (b : RuleBase)
  /-- Store an atom. -/
  | insert (k : GroundKey) (value : Float) (p : PartitionId)
  /-- Store several atoms in one partition. -/
  | commit (atoms : List (GroundKey × Float)) (p : PartitionId)
  /-- Move the stored atoms of a predicate into the write partition. -/
  | move (predicate : Predicate) (source : PartitionId)

namespace Session

/-- The session after an action; one that is refused leaves what it had done. -/
def perform (x : Session) : Action → Session
  | .resolve predicate args =>
    match x.resolve predicate args with
    | .ok (_, y) => y
    | .error _ => x
  | .setValue h value => x.setValue h value
  | .ground r => (x.run fun s => r.ground s).2
  | .groundResults r results => (x.run fun s => r.groundResults s results).2
  | .groundAll b => (x.run b.ground).2
  | .activate b => (x.activate b).2
  | .insert k value p =>
    match x.insert k value p with
    | .ok y => y
    | .error _ => x
  | .commit atoms p =>
    match x.store.commit atoms p with
    | .ok store => { x with store }
    | .error _ => x
  | .move predicate source =>
    match x.moveToWrite predicate source with
    | .ok (_, y) => y
    | .error _ => x

/-- The instances that an action hands out. -/
def returned (x : Session) : Action → List Handle
  | .resolve predicate args =>
    match x.resolve predicate args with
    | .ok (h, _) => [h]
    | .error _ => []
  | _ => []

/-- The session after several actions. -/
def after (x : Session) (actions : List Action) : Session := actions.foldl perform x

/-- The instances that several actions hand out, the last ones first. -/
def returnedBy (x : Session) : List Action → List Handle
  | [] => []
  | a :: actions => (x.perform a).returnedBy actions ++ x.returned a

/-- The instances that have come out of a session: those handed out by actions, and the atoms of
its ground rules. -/
def seen (x : Session) (actions : List Action) : List Handle :=
  x.returnedBy actions ++ (x.after actions).work.rules.flatMap GroundRule.atoms

/-- A step that succeeds leaves the store and its own workspace. -/
theorem run_eq_ok_iff {α : Type} {x y : Session} {step : Store → Grounding α} {a : α} :
    x.run step = (.ok a, y) ↔
      ∃ w, (step x.store).runOn x.work = (.ok a, w) ∧ y = { x with work := w } := by
  change ((step x.store).runOn x.work |>.1, { x with work := ((step x.store).runOn x.work).2 }) =
    (.ok a, y) ↔ _
  obtain ⟨result, w⟩ := (step x.store).runOn x.work
  constructor
  · intro h
    obtain ⟨rfl, rfl⟩ := Prod.mk.inj h
    exact ⟨w, rfl, rfl⟩
  · rintro ⟨w', h, rfl⟩
    obtain ⟨rfl, rfl⟩ := Prod.mk.inj h
    rfl

end Session

namespace Workspace

variable {m₀ : Manager} {hs hs' : List Handle} {w w' : Workspace}

/-- A workspace whose instances are in order keeps them. -/
theorem Keeps.refl (h : w.Keeps m₀ hs) : w.Keeps w.manager [] :=
  ⟨h.sound, .refl _, fun _ ha => absurd ha List.not_mem_nil, h.rules⟩

/-- What keeps the instances of a workspace keeps what that workspace kept. -/
theorem Keeps.trans (h : w.Keeps m₀ hs) (h' : w'.Keeps w.manager hs') :
    w'.Keeps m₀ (hs' ++ hs) :=
  ⟨h'.sound, h.grows.trans h'.grows, fun a ha => (List.mem_append.mp ha).elim (h'.handles a)
    fun ha => h'.grows.gives a (h.handles a ha), h'.rules⟩

/-- Whether a step succeeds or fails, the workspace keeps what it kept. -/
theorem Keeps.runOn {α : Type} {step : Grounding α} {handles : α → List Handle}
    (h : w.Keeps m₀ hs) (hstep : ∀ m, Grounding.Keeping m [] step handles) :
    (step.runOn w).2.Keeps m₀ hs := by
  have hrun := hstep w.manager w h.refl
  revert hrun
  split
  · rename_i heq
    rw [heq]
    exact fun hrun => h.trans (hrun.mono fun _ ha => absurd ha List.not_mem_nil)
  · rename_i heq
    rw [heq]
    exact h.trans

end Workspace

section Activation

variable {m₀ : Manager} {hs : List Handle}

theorem LogicalRule.keeps_groundStaged (r : LogicalRule) {s : Store} {predicates : List Predicate}
    {w w' : Workspace} {result : Except ActivationFault Nat} (hw : w.Keeps m₀ hs)
    (h : r.groundStaged s predicates w = (result, w')) : w'.Keeps m₀ hs := by
  rcases groundStaged_cases h with ⟨rfl, -⟩ | ⟨results, ground, -, hrun, -⟩
  · exact hw
  · have hstep : ∀ m, Grounding.Keeping m [] (r.groundResults s results) fun _ => [] :=
      fun m => r.keeping_groundRows s _
    have hkeeps := hw.runOn hstep
    rwa [hrun] at hkeeps

theorem RuleBase.keeps_groundStaged (b : RuleBase) {s : Store} {predicates : List Predicate}
    {indices : List Nat} {w w' : Workspace} {result : Except ActivationFault Nat}
    (hw : w.Keeps m₀ hs) (h : b.groundStaged s predicates indices w = (result, w')) :
    w'.Keeps m₀ hs := by
  induction indices generalizing w result with
  | nil =>
    obtain ⟨-, rfl⟩ := Prod.mk.inj h
    exact hw
  | cons index rest ih =>
    rcases groundStaged_cons_cases h with ⟨-, hrest⟩ |
      ⟨r, -, ⟨fault, hr, -⟩ | ⟨n, w₁, later, hr, hrest, -⟩⟩
    · exact ih hw hrest
    · exact r.keeps_groundStaged hw hr
    · exact ih (r.keeps_groundStaged hw hr) hrest

namespace Session

variable {x y : Session}

/-- The instances that may be activated are given out. -/
theorem gives_of_mem_eligible (hx : x.manager.Sound) {threshold : Float} {h : Handle}
    (hh : h ∈ x.eligible threshold) : x.manager.Gives h := by
  obtain ⟨k, hk⟩ := FiniteMap.mem_values_iff.mp (mem_eligible.mp hh).1
  exact hx.gives_of_lazy hk

theorem keeps_stage (hx : x.work.Keeps m₀ hs) {atoms : List Handle}
    (hatoms : ∀ h ∈ atoms, x.manager.Gives h) (h : x.stage atoms = .ok y) :
    y.work.Keeps m₀ hs := by
  obtain ⟨store, -, rfl⟩ := stage_eq_ok h
  obtain ⟨hsound, hgrows⟩ :=
    Manager.adopt_sound_grows hx.sound hatoms (.unobserved x.store.layout.lazy)
  exact hx.later hsound hgrows

theorem keeps_unstage (hx : x.work.Keeps m₀ hs) (ps : List Predicate) :
    (x.unstage ps).2.work.Keeps m₀ hs := by
  induction ps generalizing x with
  | nil => exact hx
  | cons p ps ih =>
    rw [unstage, moveToWrite]
    cases x.store.moveToWrite p x.store.layout.lazy with
    | error fault => exact hx
    | ok moved =>
      exact ih (hx.later (Manager.sound_promote hx.sound ..) (Manager.grows_promote ..))

theorem keeps_activateAtoms (hx : x.work.Keeps m₀ hs) {b : RuleBase} {atoms : List Handle}
    (hatoms : ∀ h ∈ atoms, x.manager.Gives h) {result : Except ActivationFault Unit}
    (h : x.activateAtoms b atoms = (result, y)) : y.work.Keeps m₀ hs := by
  rcases activateAtoms_cases h with ⟨fault, -, -, rfl⟩ |
    ⟨staged, ground, w, hstage, hground, hend⟩
  · exact hx
  · have hkeeps := b.keeps_groundStaged (keeps_stage hx hatoms hstage) hground
    rcases hend with ⟨fault, -, -, rfl⟩ | ⟨n, -, hunstage⟩
    · exact hkeeps
    · have hlater :=
        keeps_unstage (x := { staged with work := w }) hkeeps (standardPredicates atoms)
      rwa [hunstage] at hlater

/-- Activation keeps the instances, wherever it ends. -/
theorem keeps_activate (hx : x.work.Keeps m₀ hs) {b : RuleBase}
    {result : Except ActivationFault Nat} (h : x.activate b = (result, y)) :
    y.work.Keeps m₀ hs := by
  rcases activate_cases h with ⟨-, rfl⟩ | ⟨threshold, activated, -, hrun, -⟩
  · exact hx
  · exact keeps_activateAtoms hx (fun a ha => gives_of_mem_eligible hx.sound ha) hrun

/-- Resolving in a session resolves by its manager. -/
theorem resolve_eq_ok {p : Predicate} {args : List Constant} {h : Handle}
    (hr : x.resolve p args = .ok (h, y)) :
    ∃ m, x.manager.resolve x.store p args = .ok (h, m) ∧ y = x.withManager m := by
  rw [resolve] at hr
  cases hm : x.manager.resolve x.store p args with
  | error fault =>
    rw [hm] at hr
    cases hr
  | ok r =>
    rw [hm] at hr
    cases hr
    exact ⟨r.2, rfl, rfl⟩

theorem keeps_resolve {p : Predicate} {args : List Constant} {h : Handle}
    (hx : x.work.Keeps m₀ hs) (hr : x.resolve p args = .ok (h, y)) :
    y.work.Keeps m₀ ([h] ++ hs) := by
  obtain ⟨m, hm, rfl⟩ := resolve_eq_ok hr
  obtain ⟨hsound, hgrows, hh⟩ := Manager.resolve_sound_grows hx.sound hm
  have hlater := hx.later hsound hgrows
  refine ⟨hlater.sound, hlater.grows, fun a ha => ?_, hlater.rules⟩
  rcases List.mem_cons.mp ha with rfl | ha
  · exact hh
  · exact hlater.handles a ha

/-- A new session has no instances, and they are in order. -/
theorem keeps_start (s : Store) (policy : Policy) :
    (start s policy).work.Keeps (.fresh policy) [] :=
  ⟨Manager.sound_fresh policy, .refl _, fun _ h => absurd h List.not_mem_nil,
    fun _ h => absurd h List.not_mem_nil⟩

/-- Every action keeps the instances and hands out instances of the manager. -/
theorem keeps_perform (hx : x.work.Keeps m₀ hs) (a : Action) :
    (x.perform a).work.Keeps m₀ (x.returned a ++ hs) := by
  cases a with
  | resolve p args =>
    rw [perform, returned]
    cases hr : x.resolve p args with
    | error fault => exact hx
    | ok r => exact keeps_resolve hx hr
  | setValue h value =>
    exact hx.later (Manager.sound_setValue hx.sound ..) (Manager.grows_setValue ..)
  | ground r => exact hx.runOn fun m => r.keeping_ground x.store
  | groundResults r results => exact hx.runOn fun m => r.keeping_groundResults x.store results
  | groundAll b => exact hx.runOn fun m => b.keeping_ground x.store
  | activate b => exact keeps_activate hx (Prod.ext rfl rfl)
  | insert k value p =>
    rw [perform, insert]
    cases x.store.insert k value p <;> exact hx
  | commit atoms p =>
    rw [perform]
    cases x.store.commit atoms p <;> exact hx
  | move p source =>
    rw [perform, moveToWrite]
    cases x.store.moveToWrite p source <;> exact hx

/-- So do several actions. -/
theorem keeps_after (hx : x.work.Keeps m₀ hs) (actions : List Action) :
    (x.after actions).work.Keeps m₀ (x.returnedBy actions ++ hs) := by
  induction actions generalizing x hs with
  | nil => exact hx
  | cons a actions ih =>
    rw [returnedBy, List.append_assoc]
    exact ih (keeps_perform hx a)

/-- The instances that have come out of a session are given out by its manager. -/
theorem gives_of_mem_seen {s : Store} {policy : Policy} {actions : List Action} {a : Handle}
    (ha : a ∈ (start s policy).seen actions) :
    ((start s policy).after actions).manager.Gives a := by
  have hkeeps := keeps_after (keeps_start s policy) actions
  rcases List.mem_append.mp ha with hreturned | hrule
  · exact hkeeps.handles a (List.mem_append_left _ hreturned)
  · obtain ⟨g, hg, hmem⟩ := List.mem_flatMap.mp hrule
    exact hkeeps.rules g hg a hmem

end Session

end Activation

end RuleGrounding
