import RuleGrounding.Proofs.Grounding.Traces

/-!
# Rows that are dropped

A row that produces no ground clause is dropped for one of two reasons. A functional literal
makes the clause true, and then the instance of the formula is true in every world. Or no literal
is left: the rule has no standard literals at all, and then its formula may be false in every
world. So a rule that has a standard literal is dropped only where it is satisfied.
-/

namespace RuleGrounding

variable {l : Literal} {σ : Valuation}

/-- A functional literal is true in every world or in none, as it is computed. -/
theorem Literal.isTrue_iff_computesTrue (hfunctional : l.atom.predicate.isStandard = false)
    (haccepts : l.atom.predicate.Accepts (l.atom.instanceArgs σ)) (world : World) :
    l.isTrue (Atom.isTrue world σ) = true ↔ l.ComputesTrue σ := by
  obtain ⟨k, hk⟩ := GroundKey.exists_make_eq_ok haccepts
  obtain ⟨hpredicate, hargs⟩ := GroundKey.make_eq_ok hk
  rw [isTrue, Atom.isTrue, hk]
  dsimp only
  rw [GroundKey.isTrue, hpredicate, hargs]
  cases hkind : l.atom.predicate.kind with
  | standard =>
    rw [Predicate.isStandard, hkind] at hfunctional
    cases hfunctional
  | functional builtin =>
    have hone : l.ComputesTrue σ ↔
        (0.0 < builtin.value (l.atom.instanceArgs σ) ↔ l.negated = false) := by
      simp only [ComputesTrue, hkind, PredicateKind.functional.injEq, forall_eq']
    rw [hone]
    cases l.negated <;> simp

namespace LogicalRule

variable {name : String} {f : Formula} {weight : Option Float} {r : LogicalRule} {s : Store}
  {θ : Assignment} {w w' : Workspace}

/-- The formula of an accepted rule is true where its clause, which is the negation, is not. -/
theorem isTrue_formula_of_make (hr : make name f weight = .ok r) (truth : Atom → Bool) :
    f.isTrue truth = !r.clause.isTrue truth := by
  obtain ⟨clause, hexpand, -, rfl⟩ := eq_of_make hr
  have hformula : NormalForm.isTrue truth (f.expand true) = _ := f.isTrue_expand true
  rw [hexpand, NormalForm.isTrue, List.any_cons, List.any_nil, Bool.or_false, Bool.bne_true]
    at hformula
  rw [hformula, Bool.not_not]

/-- An accepted rule without standard literals has no variables. -/
theorem vars_eq_nil_of_make (hr : make name f weight = .ok r)
    (hnone : ∀ l ∈ r.clause, l.atom.predicate.isStandard = false) :
    ∀ l ∈ r.clause, l.atom.vars = [] := by
  intro l hl
  refine List.eq_nil_iff_forall_not_mem.mpr fun v hv => ?_
  obtain ⟨g, hg, hgenerates, -⟩ := exists_generates_of_make hr hl hv
  rw [Literal.generates, hnone g hg, Bool.and_false] at hgenerates
  cases hgenerates

/-- A functional literal that makes the clause true makes the formula true in every world. -/
theorem isTrue_of_not_computesTrue (hr : make name f weight = .ok r)
    (hrow : ∀ l ∈ r.clause, l.atom.predicate.Accepts (l.atom.instanceArgs σ))
    (hl : l ∈ r.clause) (hfalse : ¬ l.ComputesTrue σ) (world : World) :
    f.isTrue (Atom.isTrue world σ) = true := by
  have hfunctional : l.atom.predicate.isStandard = false := by
    rw [← Bool.not_eq_true]
    intro hstandard
    refine hfalse fun builtin hkind => ?_
    rw [Predicate.isStandard, hkind] at hstandard
    cases hstandard
  have hliteral := mt (Literal.isTrue_iff_computesTrue hfunctional (hrow l hl) world).mp hfalse
  rw [isTrue_formula_of_make hr, Bool.not_eq_true', Conjunction.isTrue, List.all_eq_false]
  exact ⟨l, hl, hliteral⟩

/-- If there are only functional literals and none makes the clause true, the formula is false in
every world. -/
theorem isTrue_eq_false_of_computesTrue (hr : make name f weight = .ok r)
    (hrow : ∀ l ∈ r.clause, l.atom.predicate.Accepts (l.atom.instanceArgs σ))
    (hnone : ∀ l ∈ r.clause, l.atom.predicate.isStandard = false)
    (hall : ∀ l ∈ r.clause, l.ComputesTrue σ) (world : World) :
    f.isTrue (Atom.isTrue world σ) = false := by
  rw [isTrue_formula_of_make hr, Bool.not_eq_false', Conjunction.isTrue, List.all_eq_true]
  exact fun l hl =>
    (Literal.isTrue_iff_computesTrue (hnone l hl) (hrow l hl) world).mpr (hall l hl)

/-- Let a row give constants of the declared types, and let it be grounded under a manager whose
functional atoms nobody has given a value, without an error and without a ground clause. Then the
instance of the formula is true in every world; or the rule has functional literals without
variables only, and its formula is false in every world. -/
theorem dropped_rows_are_satisfied_or_without_atoms (hr : make name f weight = .ok r)
    (hrow : ∀ l ∈ r.clause, l.atom.predicate.Accepts (l.atom.instanceArgs σ))
    (hσ : σ.Extends θ) (hw : w.manager.Untampered) {n : Nat}
    (hrun : (r.groundRow s θ).runOn w = (.ok n, w')) (hrules : w'.rules = w.rules) :
    (∀ world, f.isTrue (Atom.isTrue world σ) = true) ∨
      ((∀ l ∈ r.clause, l.atom.predicate.isStandard = false ∧ l.atom.vars = []) ∧
        ∀ world, f.isTrue (Atom.isTrue world σ) = false) := by
  have hleaves : ¬ r.Leaves σ := by
    obtain ⟨-, -, ⟨-, hleaves, -⟩ | ⟨g, -, -, -, hemitted⟩⟩ :=
      groundRow_eq_ok hσ (Manager.evaluates_iff.mp hw.evaluates) hrun
    · exact mt (leavesAsRead_iff fun _ _ => rfl).mpr hleaves
    · rw [hrules] at hemitted
      simp at hemitted
  by_cases hall : ∀ l ∈ r.clause, l.ComputesTrue σ
  · have hnone : ∀ l ∈ r.clause, l.atom.predicate.isStandard = false := by
      intro l hl
      rw [← Bool.not_eq_true]
      exact fun hstandard => hleaves ⟨hall, l, hl, hstandard⟩
    exact .inr ⟨fun l hl => ⟨hnone l hl, vars_eq_nil_of_make hr hnone l hl⟩,
      isTrue_eq_false_of_computesTrue hr hrow hnone hall⟩
  · push Not at hall
    obtain ⟨l, hl, hfalse⟩ := hall
    exact .inl (isTrue_of_not_computesTrue hr hrow hl hfalse)

/-- The row of a person that meets itself is dropped, and the rule about meeting somebody else is
true of it in every world. -/
theorem meeting_itself_is_satisfied :
    make "meeting" meeting none = .ok meetingRule ∧
      (∀ l ∈ meetingRule.clause,
        l.atom.predicate.Accepts (l.atom.instanceArgs fun _ => .integer 1)) ∧
      (Manager.fresh (.deferring 0.5)).Untampered ∧
      (∃ w, (meetingRule.groundRow meetingStore
          (ResultList.assign meetingRule.vars (meetingRule.vars.map fun _ => .integer 1))).runOn
            ⟨.fresh (.deferring 0.5), []⟩ = (.ok 0, w) ∧ w.rules = []) ∧
      ∀ world, meeting.isTrue (Atom.isTrue world fun _ => .integer 1) = true := by
  have hmake : make "meeting" meeting none = .ok meetingRule := rfl
  have hfresh : (Manager.fresh (.deferring 0.5)).Untampered :=
    .renew (.fresh (.deferring 0.5)) (.deferring 0.5)
  have hliterals : ∀ l ∈ meetingRule.clause,
      l = .positive meetsAtom ∨ l = .negative knowsAtom ∨ l = .negative sameAtom := by decide
  have haccepts : ∀ l ∈ meetingRule.clause,
      l.atom.predicate.Accepts (l.atom.instanceArgs fun _ => .integer 1) := by
    intro l hl
    rcases hliterals l hl with rfl | rfl | rfl <;> exact .cons rfl (.cons rfl .nil)
  obtain ⟨w, hrun, hrules⟩ : ∃ w, (meetingRule.groundRow meetingStore
      (ResultList.assign meetingRule.vars (meetingRule.vars.map fun _ => .integer 1))).runOn
        ⟨.fresh (.deferring 0.5), []⟩ = (.ok 0, w) ∧ w.rules = [] := ⟨_, rfl, rfl⟩
  refine ⟨hmake, haccepts, hfresh, ⟨w, hrun, hrules⟩, ?_⟩
  rcases dropped_rows_are_satisfied_or_without_atoms hmake haccepts
    (ResultList.extends_assign_iff.mpr rfl) hfresh hrun hrules with htrue | ⟨hnone, -⟩
  · exact htrue
  · cases (hnone (.positive meetsAtom) List.mem_cons_self).1

/-- That a text is equal to itself. -/
def selfEqual : Atom := ⟨.ofBuiltin .equal .text, [.const (.text "a"), .const (.text "a")]⟩

/-- The rule that forbids this. -/
def forbiddingRule : LogicalRule where
  name := "forbidding"
  formula := .negation (.atom selfEqual)
  clause := [.positive selfEqual]
  weight := none

/-- A row may be dropped although the rule is violated in every world: what the rule forbids is
computed, and nothing is left that a ground clause could deny. -/
theorem forbiddingRule_is_dropped_though_violated :
    make "forbidding" (.negation (.atom selfEqual)) none = .ok forbiddingRule ∧
      (∀ l ∈ forbiddingRule.clause,
        l.atom.predicate.Accepts (l.atom.instanceArgs fun _ => .integer 0)) ∧
      (∃ w, (forbiddingRule.groundRow (.empty ⟨[⟨0⟩], ⟨1⟩, ⟨2⟩⟩ 0.0)
          (ResultList.assign forbiddingRule.vars [])).runOn ⟨.fresh (.deferring 0.5), []⟩ =
        (.ok 0, w) ∧ w.rules = []) ∧
      ∀ world, (Formula.negation (.atom selfEqual)).isTrue
        (Atom.isTrue world fun _ => .integer 0) = false := by
  refine ⟨rfl, ?_, ⟨_, rfl, rfl⟩, fun world => rfl⟩
  intro l hl
  cases List.mem_singleton.mp hl
  exact .cons rfl (.cons rfl .nil)

end LogicalRule

end RuleGrounding
