import RuleGrounding.Proofs.Activation.Coverage
import RuleGrounding.Proofs.Session.Deferral

/-!
# With what activations fail

An activation looks up rules by the predicates of the atoms that it stages, and picks in each
rule the literals that it aims at. The two agree: a rule is found exactly if it has such a
literal, and each of them is one that a query may aim at. So what is left to go wrong when
accepted rules are regrounded is the type of a constant, and what is left when atoms are staged
is that one of them lies elsewhere.
-/

namespace RuleGrounding

/-- A fault that only a mistake in the activation itself can explain. -/
def ActivationFault.IsInternal : ActivationFault → Prop
  | .noLazyTargets _ => True
  | .query _ => True
  | .grounding (.query _) => True
  | .grounding (.missingBinding _) => True
  | .store (.functionalAtom _) => True
  | _ => False

/-- A literal of the rule has been given a constant of a type that its predicate does not have at
that position. -/
def LogicalRule.IllTyped (r : LogicalRule) (fault : GroundingFault) : Prop :=
  ∃ l ∈ r.clause, ∃ i t c, l.atom.predicate.argTypes[i]? = some t ∧ t.accepts c = false ∧
    fault = .lookup (.invalidKey (.argumentType l.atom.predicate.name i t.name c.toText))

/-- The logical rules of the base are accepted ones, made of atoms with the declared numbers of
arguments. -/
def RuleBase.IsAccepted (b : RuleBase) : Prop :=
  ∀ r, Rule.logical r ∈ b.rules → ∃ name f weight, LogicalRule.make name f weight = .ok r ∧
    ∀ a ∈ f.occurrences, a.HasArity

section Regrounding

variable {r : LogicalRule} {s : Store} {predicates : List Predicate} {σ : Valuation}
  {w w' : Workspace}

theorem LogicalRule.NoKey.illTyped (ha : r.HasArities) {fault : GroundingFault}
    (h : NoKey r.clause σ fault) : r.IllTyped fault := by
  obtain ⟨l, hl, refusal, hrefused, rfl⟩ := h
  have hlen : (l.atom.instanceArgs σ).length = l.atom.predicate.arity :=
    (List.length_map ..).trans (ha l hl)
  obtain ⟨i, t, c, ht, -, hill, rfl⟩ := GroundKey.exists_of_make_eq_error hlen hrefused
  exact ⟨l, hl, i, t, c, ht, hill, rfl⟩

/-- An accepted rule with a body literal over a listed standard predicate is regrounded under a
deferring manager, or has an ill-typed constant. -/
theorem LogicalRule.groundStaged_outcomes {name : String} {f : Formula} {weight : Option Float}
    (hr : make name f weight = .ok r) (ha : r.HasArities)
    (hstandard : ∀ p ∈ predicates, p.isStandard = true)
    (hbody : ∃ l ∈ r.query, l.atom.predicate ∈ predicates) (hw : w.manager.Defers) :
    (∃ n w', r.groundStaged s predicates w = (.ok n, w') ∧ w'.manager.Defers) ∨
      ∃ fault w', r.groundStaged s predicates w = (.error (.grounding fault), w') ∧
        r.IllTyped fault := by
  obtain ⟨results, heval⟩ := exists_evaluateUnion_stagedQueries hr s hstandard hbody
  obtain ⟨hvars, -, hrows⟩ := evaluateUnion_stagedQueries_eq_ok ha heval
  have hfails : Grounding.FailsOnly (r.groundResults s results) r.IllTyped := by
    rw [groundResults, ResultList.assignments, hvars]
    refine r.failsOnly_groundRows fun row hrow => ?_
    -- Which atoms are staged does not matter: every row comes from a valuation.
    obtain ⟨q, -, σ, -, hσ⟩ := (hrows row).mp hrow
    exact ⟨σ, hσ, fun fault hfault => hfault.illTyped ha⟩
  have hrun := hfails w hw
  rw [groundStaged_eq_groundResults heval w]
  cases hresult : (r.groundResults s results).runOn w with
  | mk result w' =>
    rw [hresult] at hrun
    cases result with
    | ok n => exact .inl ⟨n, w', rfl, hrun⟩
    | error fault => exact .inr ⟨fault, w', rfl, hrun⟩

/-- Regrounding rules that each have such a literal fails for an ill-typed constant only. -/
theorem RuleBase.illTyped_of_groundStaged {b : RuleBase} (hb : b.IsAccepted)
    (hstandard : ∀ p ∈ predicates, p.isStandard = true) {indices : List Nat}
    (hindices : ∀ i ∈ indices, ∀ r, b.rules[i]? = some (.logical r) →
      ∃ l ∈ r.query, l.atom.predicate ∈ predicates)
    (hw : w.manager.Defers) {fault : ActivationFault}
    (h : b.groundStaged s predicates indices w = (.error fault, w')) :
    ∃ r, Rule.logical r ∈ b.rules ∧ ∃ cause, fault = .grounding cause ∧ r.IllTyped cause := by
  induction indices generalizing w with
  | nil => cases h
  | cons index rest ih =>
    have hrest := fun i hi => hindices i (List.mem_cons_of_mem index hi)
    rcases groundStaged_cons_cases h with ⟨-, hskip⟩ | ⟨r, hindex, hrule⟩
    · exact ih hrest hw hskip
    · have hmem : Rule.logical r ∈ b.rules := List.mem_of_getElem? hindex
      obtain ⟨name, f, weight, hr, ha⟩ := hb r hmem
      have houtcomes := LogicalRule.groundStaged_outcomes hr (LogicalRule.hasArities_of_make hr ha)
        hstandard (hindices index List.mem_cons_self r hindex) (s := s) hw
      rcases hrule with ⟨stop, hstop, hfault⟩ | ⟨n, w₁, later, hok, hlater, hresult⟩
      · cases hfault
        rcases houtcomes with ⟨n, w₂, hok, -⟩ | ⟨cause, w₂, herror, hill⟩
        · rw [hstop] at hok
          cases hok
        · rw [hstop] at herror
          cases herror
          exact ⟨r, hmem, cause, rfl, hill⟩
      · rcases houtcomes with ⟨n', w₂, hok', hdefers⟩ | ⟨cause, w₂, herror, -⟩
        · rw [hok] at hok'
          cases hok'
          cases map_eq_error_iff.mp hresult.symm
          exact ih hrest hdefers hlater
        · rw [hok] at herror
          cases herror

end Regrounding

section Subscribers

variable {b : RuleBase} {predicates : List Predicate}

/-- The rules that are looked up for some predicates are the logical ones with a positive standard
literal over one of them. -/
theorem Subscriptions.mem_rulesFor_iff_exists_literal {i : Nat} :
    i ∈ (ofRules b).rulesFor predicates ↔ ∃ r, b.rules[i]? = some (.logical r) ∧
      ∃ l ∈ r.query, l.generates = true ∧ l.atom.predicate ∈ predicates := by
  rw [mem_rulesFor_ofRules]
  refine exists_congr fun r => and_congr_right fun _ => ?_
  simp only [LogicalRule.mem_queryPredicates]
  constructor
  · rintro ⟨p, hp, l, hl, hgenerates, rfl⟩
    exact ⟨l, hl, hgenerates, hp⟩
  · rintro ⟨l, hl, hgenerates, hp⟩
    exact ⟨_, hp, l, hl, hgenerates, rfl⟩

/-- A rule with a body literal over a listed standard predicate has a staged query, and the literal
that a staged query aims at is a positive standard one over a listed predicate. -/
theorem LogicalRule.stagedQueries_aim_at_generators (r : LogicalRule)
    (hstandard : ∀ p ∈ predicates, p.isStandard = true) :
    ((∃ l ∈ r.query, l.generates = true ∧ l.atom.predicate ∈ predicates) →
      r.stagedQueries predicates ≠ []) ∧
    ∀ q ∈ r.stagedQueries predicates, q.literals = r.query ∧
      ∃ i l, q.lazyTarget? = some i ∧ r.query[i]? = some l ∧ l.generates = true ∧
        l.atom.predicate ∈ predicates := by
  refine ⟨?_, fun q hq => ?_⟩
  · rintro ⟨l, hl, -, hp⟩
    obtain ⟨i, hi⟩ := List.mem_iff_getElem?.mp hl
    exact List.ne_nil_of_mem (mem_stagedQueries.mpr ⟨i, l, hi, hp, rfl⟩)
  · obtain ⟨i, l, hi, hp, rfl⟩ := mem_stagedQueries.mp hq
    refine ⟨rfl, i, l, rfl, hi, ?_, hp⟩
    rw [Literal.generates, negated_of_mem_query (List.mem_of_getElem? hi), hstandard _ hp]
    rfl

end Subscribers

namespace Session

/-- The sessions that actions lead to, beginning with an empty store; in between another manager,
which has resolved nothing, may go on over the store. -/
inductive Reachable : Session → Prop
  /-- Nothing is stored and nothing resolved. -/
  | start (layout : PartitionLayout) (default : Float) (policy : Policy) :
    Reachable (start (.empty layout default) policy)
  /-- An action is performed, or refused. -/
  | perform {x : Session} (hx : Reachable x) (a : Action) : Reachable (x.perform a)
  /-- Another manager goes on over the same store. -/
  | restart {x : Session} (hx : Reachable x) (policy : Policy) : Reachable (start x.store policy)

variable {x y : Session} {b : RuleBase} {threshold : Float} {fault : ActivationFault}

/-- Where actions lead is reachable. -/
theorem Reachable.after (hx : x.Reachable) (actions : List Action) :
    (x.after actions).Reachable := by
  induction actions generalizing x with
  | nil => exact hx
  | cons a actions ih => exact ih (hx.perform a)

/-- In a reachable session the instances are in order, and what is deferred may be stored. -/
theorem Reachable.keeps (hx : x.Reachable) : x.work.Keeps x.manager [] ∧
    x.manager.DefersStorable ∧ ∃ v, x.store.defaultValue = SoftValue.clamp v := by
  induction hx with
  | start layout default policy =>
    exact ⟨keeps_start _ policy, Manager.defersStorable_fresh policy, default, rfl⟩
  | @perform x hx a ih =>
    obtain ⟨hkeeps, hdefers, hdefault⟩ := ih
    have hchanges := x.changes_perform a
    refine ⟨(keeps_perform hkeeps a).refl, hchanges.defersStorable hkeeps hdefault hdefers, ?_⟩
    rwa [hchanges.becomes.defaultValue]
  | restart hx policy ih =>
    exact ⟨keeps_start _ policy, Manager.defersStorable_fresh policy, ih.2.2⟩

/-- Only a deferring manager has atoms to activate. -/
theorem defers_of_activate_eq_error (h : x.activate b = (.error fault, y)) : x.manager.Defers := by
  rw [Manager.Defers]
  cases hpolicy : x.manager.policy with
  | deferring threshold => exact ⟨threshold, rfl⟩
  | strict =>
    rw [activate, hpolicy, Policy.threshold?] at h
    cases h

/-- Staging keeps a deferring manager deferring. -/
theorem defers_of_stage_eq_ok {atoms : List Handle} (hx : x.manager.Sound)
    (hatoms : ∀ a ∈ atoms, x.manager.Gives a) (hdefers : x.manager.Defers)
    (h : x.stage atoms = .ok y) : y.manager.Defers := by
  obtain ⟨threshold, hpolicy⟩ := hdefers
  obtain ⟨store, -, rfl⟩ := stage_eq_ok h
  exact ⟨threshold, (Manager.adopt_sound_grows hx hatoms _).2.policy.trans hpolicy⟩

/-- The predicates that rules are looked up for are standard ones. -/
theorem isStandard_of_mem_standardPredicates {atoms : List Handle} {p : Predicate}
    (hp : p ∈ standardPredicates atoms) : p.isStandard = true :=
  (List.mem_filter.mp (mem_distinct.mp hp)).2

/-- An activation in a reachable session fails because an eligible atom lies elsewhere, or because
a rule has an ill-typed constant. -/
theorem fault_of_activate (hx : x.Reachable) (hb : b.IsAccepted)
    (h : x.activate b = (.error fault, y)) :
    (∃ k p, fault = .store (.duplicateAtom k p)) ∨
      ∃ r, Rule.logical r ∈ b.rules ∧ ∃ cause, fault = .grounding cause ∧ r.IllTyped cause := by
  obtain ⟨hkeeps, hstorable, -⟩ := hx.keeps
  obtain ⟨threshold, hpolicy⟩ := defers_of_activate_eq_error h
  have hactivate := h
  rcases activate_deferring_cases hpolicy h with ⟨-, hresult, -⟩ | ⟨-, activated, hrun, hresult⟩
  · cases hresult
  · cases map_eq_error_iff.mp hresult.symm
    rcases activateAtoms_cases hrun with ⟨stop, hstage, hfault, -⟩ |
      ⟨staged, ground, w, hstage, hground, ⟨stop, rfl, hfault, -⟩ | ⟨n, -, hunstage⟩⟩
    · cases hfault
      obtain ⟨refusal, -, rfl⟩ := stage_eq_error_iff.mp hstage
      obtain ⟨a, -, hplace⟩ :=
        placeFault?_of_activate hkeeps.sound hpolicy hstorable hactivate
      obtain ⟨stored, -, -, rfl⟩ := Store.placeFault?_eq_some_iff.mp hplace
      exact .inl ⟨_, _, rfl⟩
    · cases hfault
      refine .inr (RuleBase.illTyped_of_groundStaged hb
        (fun p hp => isStandard_of_mem_standardPredicates hp) ?_ ?_ hground)
      · intro i hi r hr
        obtain ⟨r', hr', l, hl, -, hp⟩ := Subscriptions.mem_rulesFor_iff_exists_literal.mp hi
        rw [hr] at hr'
        cases hr'
        exact ⟨l, hl, hp⟩
      · exact defers_of_stage_eq_ok hkeeps.sound
          (fun a ha => gives_of_mem_eligible hkeeps.sound ha) ⟨threshold, hpolicy⟩ hstage
    · have hdone := congrArg Prod.fst hunstage
      rw [unstage_fst] at hdone
      cases hdone

/-- Let a session be reachable and the logical rules of a base accepted. An activation fails only
because an eligible atom is stored elsewhere or a rule has a constant of the wrong type, and never
for a mistake of its own. For the rules that it looks up are the logical ones with a positive
standard literal over an activated predicate, each of these has a staged query, and the literals
that staged queries aim at are such literals. -/
theorem activation_fails_for_no_internal_reason (hx : x.Reachable) (hb : b.IsAccepted) :
    (∀ fault y, x.activate b = (.error fault, y) → ¬ fault.IsInternal ∧
      ((∃ k p, fault = .store (.duplicateAtom k p)) ∨
        ∃ r, Rule.logical r ∈ b.rules ∧ ∃ cause, fault = .grounding cause ∧
          r.IllTyped cause)) ∧
    ∀ atoms : List Handle,
      (∀ i, i ∈ (Subscriptions.ofRules b).rulesFor (standardPredicates atoms) ↔
        ∃ r, b.rules[i]? = some (.logical r) ∧
          ∃ l ∈ r.query, l.generates = true ∧ l.atom.predicate ∈ standardPredicates atoms) ∧
      ∀ i ∈ (Subscriptions.ofRules b).rulesFor (standardPredicates atoms), ∀ r,
        b.rules[i]? = some (.logical r) → r.stagedQueries (standardPredicates atoms) ≠ [] ∧
          ∀ q ∈ r.stagedQueries (standardPredicates atoms), q.literals = r.query ∧
            ∃ j l, q.lazyTarget? = some j ∧ r.query[j]? = some l ∧ l.generates = true ∧
              l.atom.predicate ∈ standardPredicates atoms := by
  refine ⟨fun fault y h => ?_, fun atoms => ⟨fun i => ?_, fun i hi r hr => ?_⟩⟩
  · have hfault := fault_of_activate hx hb h
    refine ⟨?_, hfault⟩
    rcases hfault with ⟨k, p, rfl⟩ | ⟨r, -, cause, rfl, l, -, j, t, c, -, -, rfl⟩
    · exact id
    · exact id
  · exact Subscriptions.mem_rulesFor_iff_exists_literal
  · obtain ⟨r', hr', hliteral⟩ := Subscriptions.mem_rulesFor_iff_exists_literal.mp hi
    rw [hr] at hr'
    cases hr'
    have hstandard : ∀ p ∈ standardPredicates atoms, p.isStandard = true :=
      fun p hp => isStandard_of_mem_standardPredicates hp
    obtain ⟨hsome, haim⟩ := r.stagedQueries_aim_at_generators hstandard
    exact ⟨hsome hliteral, haim⟩

theorem isAccepted_contagionBase (t : ArgumentType) : (contagionBase t).IsAccepted := by
  intro r hr
  cases List.mem_singleton.mp hr
  refine ⟨"contagion", .implies (.atom infected) (.atom (contagious t)), none, ?_, ?_⟩
  · cases t <;> rfl
  · cases t <;> decide

/-- The infection of Ann is activated in a reachable session with an accepted rule, for which there
is a staged query. This fails if persons are written as numbers where they are contagious, and that
is not for an internal reason. -/
theorem illTyped_is_no_internal_reason :
    tested.Reachable ∧ (contagionBase .integer).IsAccepted ∧
      tested.activate (contagionBase .integer) = (.error illTyped, testedStaged) ∧
      ¬ illTyped.IsInternal ∧ (contagion .integer).stagedQueries [infected.predicate] ≠ [] := by
  have hreachable : tested.Reachable :=
    (Reachable.start ⟨[⟨0⟩], ⟨1⟩, ⟨2⟩⟩ 0.5 (.deferring 0.5)).after testActions
  have hb := isAccepted_contagionBase .integer
  obtain ⟨hfault, hrules⟩ := activation_fails_for_no_internal_reason hreachable hb
  obtain ⟨hfound, hqueries⟩ := hrules [⟨annInfected, 0⟩]
  have hindex : 0 ∈ (Subscriptions.ofRules (contagionBase .integer)).rulesFor
      (standardPredicates [⟨annInfected, 0⟩]) :=
    (hfound 0).mpr ⟨contagion .integer, rfl, .positive infected, List.mem_singleton_self _, rfl,
      List.mem_singleton_self _⟩
  exact ⟨hreachable, hb, activate_tested_integer, (hfault _ _ activate_tested_integer).1,
    (hqueries 0 hindex _ rfl).1⟩

end Session

end RuleGrounding
