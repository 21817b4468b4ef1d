import RuleGrounding.Proofs.Grounding.Traces
import RuleGrounding.Proofs.Session.Changes

/-!
# Values assigned to functional atoms

The same relation is read in two places. The filters of a query compute it from its constants,
but grounding reads it from the instance of the atom, and an instance takes any value that
somebody assigns to it. So the two agree as long as nobody does. Afterwards it depends on the last
value assigned which rows are dropped, and nothing puts the computed value back.
-/

namespace RuleGrounding

/-- A functional literal holds in a store, whatever is stored, if it is true as it is computed. -/
theorem Literal.holdsIn_iff_computesTrue {l : Literal} {builtin : Builtin}
    (hkind : l.atom.predicate.kind = .functional builtin) {s : Store} {σ : Valuation} :
    l.HoldsIn s σ ↔ l.ComputesTrue σ := by
  have hzero : ∀ args, (builtin.value args == 0.0) = true ↔ ¬ 0.0 < builtin.value args := by
    intro args
    rw [Builtin.value]
    split <;> decide
  cases hnegated : l.negated <;> simp [HoldsIn, ComputesTrue, hkind, hnegated, hzero]

namespace Session

variable {x y : Session} {m₀ : Manager} {hs : List Handle}
  {assigned : GroundKey → Option Float}

/-- The value that an action assigns to the instance of a key. -/
def assigns (x : Session) (k : GroundKey) : Action → Option Float
  | .setValue h value => x.manager.assigns h value k
  | _ => none

/-- The last value that several actions assign to the instance of a key. -/
def assignedBy (x : Session) (k : GroundKey) : List Action → Option Float
  | [] => none
  | a :: actions => ((x.perform a).assignedBy k actions).or (x.assigns k a)

/-- Activation assigns nothing, wherever it ends. -/
theorem reflects_activate (hx : x.work.Keeps m₀ hs) (h : x.manager.Reflects assigned)
    {b : RuleBase} {result : Except ActivationFault Nat} (hrun : x.activate b = (result, y)) :
    y.manager.Reflects assigned := by
  rcases activate_cases hrun with ⟨-, rfl⟩ | ⟨threshold, activated, -, hactivate, -⟩
  · exact h
  · have hgives : ∀ a ∈ x.eligible threshold, x.manager.Gives a :=
      fun a ha => gives_of_mem_eligible hx.sound ha
    refine manager_activateAtoms hx hgives h (h.adopt hgives _) ?_ ?_ hactivate
    · exact fun _ _ hsound hextends hm => hm.extend hextends hsound
    · intro _ _ _ m m' hsound hpromotes hm
      refine hm.of_value_eq hsound (fun k => ?_) hpromotes.values
      rw [Manager.instance?, hpromotes.lazy, hpromotes.known]
      rfl

/-- An action assigns what it says, and leaves what has been assigned before. -/
theorem reflects_perform (hx : x.work.Keeps m₀ hs) (h : x.manager.Reflects assigned) (a : Action) :
    (x.perform a).manager.Reflects fun k => (x.assigns k a).or (assigned k) := by
  have hlater := (keeps_perform hx a).sound
  rcases x.manager_perform_cases a with ⟨b, value, rfl⟩ | ⟨b, rfl⟩ | hextends
  · exact h.setValue b value
  · exact reflects_activate hx h (Prod.ext rfl rfl)
  · cases a with
    | setValue b value => exact h.setValue b value
    | _ => exact h.extend hextends hlater

/-- After several actions the last assignments count. -/
theorem reflects_after (hx : x.work.Keeps m₀ hs) (h : x.manager.Reflects assigned)
    (actions : List Action) :
    (x.after actions).manager.Reflects fun k => (x.assignedBy k actions).or (assigned k) := by
  induction actions generalizing x hs assigned with
  | nil => exact h
  | cons a actions ih =>
    have hrest := ih (keeps_perform hx a) (reflects_perform hx h a)
    simp only [← Option.or_assoc] at hrest
    exact hrest

/-- How functional atoms are read in a session in which some have been assigned values. -/
structure ReadsAs (assigned : GroundKey → Option Float) (x : Session) : Prop where
  /-- An instance has the assigned value, or else the computed one. -/
  value : ∀ h builtin, x.manager.Gives h → h.key.predicate.kind = .functional builtin →
    x.pool.value h = builtin.presentValue h.key.args (assigned h.key)
  /-- A filter of a query is decided as it is computed. -/
  filter : ∀ (l : Literal) builtin σ θ, l.atom.predicate.kind = .functional builtin →
    σ.Extends θ → (∀ v ∈ l.atom.vars, v ∈ θ.keys) →
      (x.store.filterHolds θ l = true ↔ l.ComputesTrue σ)
  /-- A row is dropped if nothing is left of the clause when functional literals are read. -/
  row : ∀ (r : LogicalRule) σ θ n w, σ.Extends θ →
    (r.groundRow x.store θ).runOn x.work = (.ok n, w) → (n = 0 ↔ ¬ r.LeavesAsRead assigned σ)
  /-- So a rule is grounded for the substitutions that satisfy its body, as it is computed, and
  leave something of the clause, as it is read. -/
  rule : ∀ name f weight r n w, LogicalRule.make name f weight = .ok r →
    (∀ a ∈ f.occurrences, a.HasArity) → (r.ground x.store).runOn x.work = (.ok n, w) →
      r.AppendsInstances (fun σ => r.SatisfiedBy x.store σ ∧ r.LeavesAsRead assigned σ) x.work w n

theorem readsAs_of_reflects (h : x.manager.Reflects assigned) : x.ReadsAs assigned where
  value := h.value
  filter l builtin σ θ hkind hσ hv := by
    have hgenerates : l.generates = false := by
      rw [Literal.generates, Predicate.isStandard, hkind]
      exact Bool.and_false _
    exact (Store.filterHolds_iff hgenerates hσ hv).trans (Literal.holdsIn_iff_computesTrue hkind)
  row r σ θ n w hσ hrun := by
    rcases (LogicalRule.groundRow_eq_ok hσ h hrun).2.2 with
      ⟨rfl, hdropped, -⟩ | ⟨g, rfl, hleaves, -⟩
    · exact iff_of_true rfl hdropped
    · exact iff_of_false Nat.one_ne_zero (not_not.mpr hleaves)
  rule _ _ _ _ _ _ hr ha hrun := LogicalRule.ground_eq_ok hr ha h hrun

/-- Whatever happens in a session under one manager, functional atoms are read by the last values
that have been assigned to them: which rows are dropped depends on these, while the filters of
queries do not. As long as no functional atom has been assigned a value, its instance has the
computed one, and rows are dropped as it is computed, too. -/
theorem functional_atoms_are_read_as_assigned {s : Store} {policy : Policy} {actions : List Action}
    (hx : x = (start s policy).after actions) :
    (x.ReadsAs fun k => (start s policy).assignedBy k actions) ∧
    ((∀ k, k.predicate.isStandard = false → (start s policy).assignedBy k actions = none) →
      (∀ h builtin, x.manager.Gives h → h.key.predicate.kind = .functional builtin →
        x.pool.value h = builtin.value h.key.args) ∧
      ∀ (r : LogicalRule) σ θ n w, σ.Extends θ →
        (r.groundRow x.store θ).runOn x.work = (.ok n, w) → (n = 0 ↔ ¬ r.Leaves σ)) := by
  have hreads : x.ReadsAs fun k => (start s policy).assignedBy k actions := by
    have hrun := reflects_after (keeps_start s policy)
      (Manager.reflects_renew (.fresh policy) policy) actions
    simp only [Option.or_none] at hrun
    rw [hx]
    exact readsAs_of_reflects hrun
  refine ⟨hreads, fun hnone => ⟨fun h builtin hh hkind => ?_, fun r σ θ n w hσ hrun => ?_⟩⟩
  · have hfunctional : h.key.predicate.isStandard = false := by
      rw [Predicate.isStandard, hkind]
      rfl
    have hvalue := hreads.value h builtin hh hkind
    rw [hnone h.key hfunctional] at hvalue
    exact hvalue
  · rw [← LogicalRule.leavesAsRead_iff hnone]
    exact hreads.row r σ θ n w hσ hrun

/-- That the first person is the second. -/
def firstIsSecond : GroundKey := ⟨.ofBuiltin .equal .integer, [.integer 1, .integer 2], rfl⟩

/-- Somebody asks whether the first person is the second. -/
def question : List Action := [.resolve firstIsSecond.predicate firstIsSecond.args]

/-- Afterwards somebody says so. -/
def confusion : List Action := question ++ [.setValue ⟨firstIsSecond, 0⟩ 1.0]

/-- The session after some of this. -/
def asked (actions : List Action) : Session :=
  (start LogicalRule.meetingStore (.deferring 0.5)).after actions

/-- Two persons, the first one and the second one. -/
def twoPersons : Valuation := fun v => if v = ⟨"A"⟩ then .integer 1 else .integer 2

/-- The row of these persons. -/
def twoPersonsRow : Assignment :=
  ResultList.assign LogicalRule.meetingRule.vars (LogicalRule.meetingRule.vars.map twoPersons)

/-- The row is grounded as long as nobody has said that the persons are the same. Afterwards it is
dropped, although something of the clause is left as it is computed, and the filter still says that
they are not. -/
theorem row_is_dropped_after_confusion :
    (asked question).pool.value ⟨firstIsSecond, 0⟩ = Builtin.value .equal firstIsSecond.args ∧
      (∃ w, (LogicalRule.meetingRule.groundRow (asked question).store twoPersonsRow).runOn
        (asked question).work = (.ok 1, w)) ∧
      (asked confusion).pool.value ⟨firstIsSecond, 0⟩ = SoftValue.clamp 1.0 ∧
      (∃ w, (LogicalRule.meetingRule.groundRow (asked confusion).store twoPersonsRow).runOn
        (asked confusion).work = (.ok 0, w)) ∧
      LogicalRule.meetingRule.Leaves twoPersons ∧
      ¬ (asked confusion).store.filterHolds twoPersonsRow (.positive LogicalRule.sameAtom) := by
  obtain ⟨-, hcomputed⟩ := functional_atoms_are_read_as_assigned (x := asked question) rfl
  obtain ⟨hvalues, hrows⟩ := hcomputed fun _ _ => rfl
  obtain ⟨hreads, -⟩ := functional_atoms_are_read_as_assigned (x := asked confusion) rfl
  have hσ : twoPersons.Extends twoPersonsRow := ResultList.extends_assign_iff.mpr rfl
  have hgrounded : ∃ w, (LogicalRule.meetingRule.groundRow (asked question).store
      twoPersonsRow).runOn (asked question).work = (.ok 1, w) := ⟨_, rfl⟩
  refine ⟨hvalues ⟨firstIsSecond, 0⟩ .equal rfl rfl, hgrounded,
    hreads.value ⟨firstIsSecond, 0⟩ .equal rfl rfl, ⟨_, rfl⟩, ?_, fun hholds => ?_⟩
  · obtain ⟨w, hrun⟩ := hgrounded
    by_contra hnone
    cases (hrows _ _ _ _ w hσ hrun).mpr hnone
  · have hbound : ∀ v ∈ LogicalRule.sameAtom.vars, v ∈ twoPersonsRow.keys := by decide
    have hfilter := hreads.filter (.positive LogicalRule.sameAtom) .equal _ _ rfl hσ hbound
    have hpositive : 0.0 < Builtin.value .equal [.integer 1, .integer 2] :=
      (hfilter.mp hholds .equal rfl).mpr rfl
    revert hpositive
    decide

end Session

end RuleGrounding
