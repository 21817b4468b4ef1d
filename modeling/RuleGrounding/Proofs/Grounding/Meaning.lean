import RuleGrounding.Proofs.Formula.Truth
import RuleGrounding.Proofs.Grounding.Clauses

/-!
# What ground clauses mean

A world says which standard ground atoms are true; functional ones are true as they
are computed. A ground clause is true in the same worlds as the instance of the
formula that it was grounded from, although it stems from the negation of that
formula and has no functional atoms.
-/

namespace RuleGrounding

/-- Which standard ground atoms are true. -/
abbrev World := GroundKey → Bool

/-- Whether a ground atom is true in a world: a functional one is if its computed value is above
zero. -/
def GroundKey.isTrue (world : World) (k : GroundKey) : Bool :=
  match k.predicate.kind with
  | .standard => world k
  | .functional builtin => decide (0.0 < builtin.value k.args)

/-- Whether the instance of an atom under a valuation is true in a world. There is no ground atom
with ill-typed arguments, and then it is not. -/
def Atom.isTrue (world : World) (σ : Valuation) (a : Atom) : Bool :=
  match GroundKey.make a.predicate (a.instanceArgs σ) with
  | .ok k => k.isTrue world
  | .error _ => false

/-- Whether the clause with some sides is false in a world: all asserted atoms are false in it, and
all denied ones are true. -/
def ClauseSides.refuted (world : World) (sides : ClauseSides) : Bool :=
  (sides.positive.all fun h => !world h.key) && sides.negative.all fun h => world h.key

/-- A clause with one more atom is false if that atom is as the literal requires. -/
theorem ClauseSides.refuted_add (world : World) (sides : ClauseSides) (negated : Bool)
    (h : Handle) : (sides.add negated h).refuted world =
      (sides.refuted world && (world h.key != negated)) := by
  cases negated
  · simp [add, refuted, Bool.and_assoc]
  · simp [add, refuted, Bool.and_right_comm]

/-- A clause that is not false has a true asserted atom or a false denied one. -/
theorem ClauseSides.refuted_eq_false_iff (world : World) (sides : ClauseSides) :
    sides.refuted world = false ↔
      (∃ h ∈ sides.positive, world h.key = true) ∨ ∃ h ∈ sides.negative, world h.key = false := by
  rw [refuted, Bool.and_eq_false_iff, List.all_eq_false, List.all_eq_false]
  simp only [Bool.not_eq_true, Bool.not_eq_false']

variable {s : Store} {θ : Assignment} {σ : Valuation} {l : Literal}

/-- The instance of a literal's atom is true if the ground atom of the literal is. -/
theorem Literal.isTrue_of_key? (hσ : σ.Extends θ) {k : GroundKey} (hk : l.key? θ = some k)
    (world : World) : l.atom.isTrue world σ = k.isTrue world := by
  rw [key?] at hk
  split at hk
  · cases hk
  · rename_i args hargs
    rw [Atom.isTrue, ← Atom.eq_instanceArgs_of_groundArgs hσ hargs]
    cases hmake : GroundKey.make l.atom.predicate args with
    | error fault =>
      rw [hmake] at hk
      cases hk
    | ok k' =>
      rw [hmake] at hk
      cases hk
      rfl

/-- A workspace in which functional atoms have their computed values, with some ground rules. -/
structure Workspace.EvaluatesWith (rules : List GroundRule) (w : Workspace) : Prop where
  /-- Functional atoms have their computed values. -/
  evaluates : w.manager.Evaluates
  /-- The ground rules are the given ones. -/
  rules : w.rules = rules

namespace LogicalRule

open Grounding

variable {rules : List GroundRule}

/-- A literal that is resolved is resolved to an instance of its ground atom. -/
theorem ensures_resolveLiteral (θ : Assignment) (l : Literal) :
    Ensures (Workspace.EvaluatesWith rules) (resolveLiteral s θ l)
      (fun h w => (w.EvaluatesWith rules ∧ w.manager.Gives h) ∧ l.key? θ = some h.key)
      fun _ w => w.rules = rules := by
  rw [resolveLiteral]
  split
  · exact ensures_throw fun _ hw => hw.rules
  · rename_i args hargs
    refine ensures_resolve (fun w h m hw hr => ?_) fun _ _ hw _ => hw.rules
    obtain ⟨k, hmake, hk⟩ := Manager.resolve_eq_ok_iff.mp hr
    obtain ⟨-, -, hkey, hgives⟩ := Manager.resolveKey_sound_grows hw.evaluates.sound hk
    refine ⟨⟨⟨hw.evaluates.resolveKey hk, hw.rules⟩, hgives⟩, ?_⟩
    rw [Literal.key?, hargs]
    dsimp only
    rw [hmake, hkey]
    rfl

/-- If the literals of a clause give sides, the clause with these is false in a world exactly when
the instances of the literals are true in it. No ground rule is produced by then. -/
theorem ensures_groundLiterals (hσ : σ.Extends θ) (ls : Conjunction) (sides : ClauseSides) :
    Ensures (Workspace.EvaluatesWith rules) (groundLiterals s θ ls sides)
      (fun result w => w.rules = rules ∧ ∀ final, result = some final → ∀ world,
        final.refuted world = (sides.refuted world && ls.isTrue (Atom.isTrue world σ)))
      fun _ w => w.rules = rules := by
  induction ls generalizing sides with
  | nil =>
    refine ensures_pure fun w hw => ⟨hw.rules, fun final hfinal world => ?_⟩
    rw [← Option.some.inj hfinal]
    exact (Bool.and_true _).symm
  | cons l ls ih =>
    rw [groundLiterals]
    refine (ensures_resolveLiteral θ l).bind fun h => Ensures.of_and fun hkey => ?_
    have htruth := Literal.isTrue_of_key? hσ hkey
    have hpredicate := Literal.predicate_of_key? hkey
    split
    · rename_i hstandard
      have hkind : h.key.predicate.kind = .standard := by
        rw [hpredicate]
        exact of_decide_eq_true hstandard
      refine (ih (sides.add l.negated h)).imp (fun _ hw => hw.1)
        (fun result w hresult => ⟨hresult.1, ?_⟩) fun _ _ hw => hw
      intro final hfinal world
      rw [hresult.2 final hfinal world, ClauseSides.refuted_add, Conjunction.isTrue_cons,
        Literal.isTrue, htruth world, GroundKey.isTrue, hkind, Bool.and_assoc]
    · rename_i hstandard
      obtain ⟨builtin, hkind⟩ : ∃ builtin, h.key.predicate.kind = .functional builtin := by
        rw [hpredicate]
        cases hk : l.atom.predicate.kind with
        | standard => exact absurd (decide_eq_true hk) hstandard
        | functional builtin => exact ⟨builtin, rfl⟩
      -- Nobody has changed the value, so it is what the formula is read with.
      have hcomputed : ∀ w : Workspace, w.EvaluatesWith rules ∧ w.manager.Gives h →
          w.EvaluatesWith rules ∧ w.manager.pool.value h = builtin.value h.key.args :=
        fun w hw => ⟨hw.1, hw.1.evaluates.computed h builtin hw.2 hkind⟩
      refine (ensures_valueOf (Q := fun v w => w.EvaluatesWith rules ∧
        v = builtin.value h.key.args) hcomputed).bind fun value => Ensures.of_and fun hvalue => ?_
      split
      · exact ensures_pure fun w hw => ⟨hw.rules, fun _ hfinal => by cases hfinal⟩
      · rename_i hkeep
        have hliteral : ∀ world, l.isTrue (Atom.isTrue world σ) = true := by
          intro world
          rw [Literal.isTrue, htruth world, GroundKey.isTrue, hkind]
          rw [hvalue] at hkeep
          exact bne_iff_ne.mpr hkeep
        refine (ih sides).imp (fun _ hw => hw)
          (fun result w hresult => ⟨hresult.1, ?_⟩) fun _ _ hw => hw
        intro final hfinal world
        rw [hresult.2 final hfinal world, Conjunction.isTrue_cons, hliteral world, Bool.true_and]

/-- Grounding a row produces nothing, or one ground clause that is false in a world exactly when
the instance of the rule's clause is true in it. -/
theorem ensures_groundRow (hσ : σ.Extends θ) (r : LogicalRule) (rules : List GroundRule) :
    Ensures (Workspace.EvaluatesWith rules) (r.groundRow s θ)
      (fun _ w => w.rules = rules ∨ ∃ g : GroundClause, w.rules = rules ++ [.logical g] ∧
        ∀ world, ClauseSides.refuted world ⟨g.positive, g.negative⟩ =
          r.clause.isTrue (Atom.isTrue world σ))
      fun _ w => w.rules = rules := by
  rw [groundRow]
  refine (ensures_groundLiterals hσ r.clause .empty).bind fun result => ?_
  split
  · exact ensures_pure fun w hw => .inl hw.1
  · rename_i g hg
    obtain ⟨sides, rfl, hclause⟩ := Option.bind_eq_some_iff.mp hg
    rw [clauseOf?] at hclause
    split at hclause
    · cases hclause
    · cases hclause
      let g : GroundClause := ⟨r.name, r.weight, sides.positive, sides.negative⟩
      refine (ensures_emit fun w hw => .inr ⟨g, ?_, ?_⟩).bind fun _ => ensures_pure fun _ hw => hw
      · rw [hw.1]
      · intro world
        exact (hw.2 sides rfl world).trans (Bool.true_and _)

/-- A ground clause means what the formula of its rule means. Under a manager whose functional
atoms nobody has given a value, the instance of the formula is true in a world exactly when an
asserted atom of the clause is true or a denied one false. -/
theorem formula_isTrue_iff_of_groundRow {name : String} {f : Formula} {weight : Option Float}
    {r : LogicalRule} (hr : make name f weight = .ok r) {w w' : Workspace}
    (hw : w.manager.Untampered) {result : Except GroundingFault Nat}
    (hrun : (r.groundRow s θ).runOn w = (result, w')) {g : GroundClause}
    (hrules : w'.rules = w.rules ++ [.logical g]) (hσ : σ.Extends θ) (world : World) :
    f.isTrue (Atom.isTrue world σ) = true ↔
      (∃ h ∈ g.positive, world h.key = true) ∨ ∃ h ∈ g.negative, world h.key = false := by
  obtain ⟨clause, hexpand, -, rfl⟩ := eq_of_make hr
  have hsome : w'.rules ≠ w.rules := by
    rw [hrules]
    exact fun h => by simpa using congrArg List.length h
  have hrow := ensures_groundRow (s := s) hσ ⟨name, f, clause, weight⟩ w.rules w
    ⟨hw.evaluates, rfl⟩
  rw [hrun] at hrow
  cases result with
  | error fault => exact absurd hrow hsome
  | ok n =>
    obtain ⟨g', hg', hmeaning⟩ := Or.resolve_left hrow hsome
    rw [hrules] at hg'
    cases List.append_cancel_left hg'
    have hformula : NormalForm.isTrue (Atom.isTrue world σ) (f.expand true) = _ :=
      f.isTrue_expand true
    rw [hexpand, NormalForm.isTrue, List.any_cons, List.any_nil, Bool.or_false, Bool.bne_true,
      ← hmeaning world] at hformula
    rw [← ClauseSides.refuted_eq_false_iff world ⟨g.positive, g.negative⟩, hformula,
      Bool.not_eq_false']

/-- That somebody knows somebody. -/
def knowsAtom : Atom := ⟨.standard "Knows" [.integer, .integer], [.var ⟨"A"⟩, .var ⟨"B"⟩]⟩

/-- The same with the persons exchanged. -/
def knownAtom : Atom := ⟨.standard "Knows" [.integer, .integer], [.var ⟨"B"⟩, .var ⟨"A"⟩]⟩

/-- That the persons are different. -/
def differAtom : Atom := ⟨.ofBuiltin .notEqual .integer, [.var ⟨"A"⟩, .var ⟨"B"⟩]⟩

/-- Whoever knows somebody else is not unknown to that person. -/
def acquaintance : Formula := .disjunction [
  .negation (.conjunction [.atom knowsAtom, .atom differAtom]),
  .negation (.negation (.atom knownAtom))]

/-- The rule of this formula. -/
def acquaintanceRule : LogicalRule where
  name := "acquaintance"
  formula := acquaintance
  clause := [.positive knowsAtom, .positive differAtom, .negative knownAtom]
  weight := none

/-- Two persons. -/
def twoPersons : Assignment := .ofList [(⟨"A"⟩, .integer 1), (⟨"B"⟩, .integer 2)]

/-- That the first person knows the second. -/
def firstKnowsSecond : GroundKey := ⟨.standard "Knows" [.integer, .integer],
  [.integer 1, .integer 2], rfl⟩

/-- That the second person knows the first. -/
def secondKnowsFirst : GroundKey := ⟨.standard "Knows" [.integer, .integer],
  [.integer 2, .integer 1], rfl⟩

/-- What the rule is grounded to for these persons. -/
def acquaintanceClause : GroundClause where
  rule := "acquaintance"
  weight := none
  positive := [⟨secondKnowsFirst, 2⟩]
  negative := [⟨firstKnowsSecond, 0⟩]

/-- For two persons the double negation, the conjunction and the computed atom are gone from the
ground clause, and yet it means the same. -/
theorem acquaintance_isTrue_iff :
    make "acquaintance" acquaintance none = .ok acquaintanceRule ∧
      (Manager.fresh (.deferring 0.5)).Untampered ∧
      ∃ w, (acquaintanceRule.groundRow (.empty ⟨[⟨0⟩], ⟨1⟩, ⟨2⟩⟩ 0.0) twoPersons).runOn
          ⟨.fresh (.deferring 0.5), []⟩ = (.ok 1, w) ∧
        w.rules = [.logical acquaintanceClause] ∧
        ∀ world, acquaintance.isTrue (Atom.isTrue world (.ofAssignment twoPersons)) = true ↔
          world secondKnowsFirst = true ∨ world firstKnowsSecond = false := by
  have hmake : make "acquaintance" acquaintance none = .ok acquaintanceRule := rfl
  have hfresh : (Manager.fresh (.deferring 0.5)).Untampered :=
    .renew (.fresh (.deferring 0.5)) (.deferring 0.5)
  refine ⟨hmake, hfresh, _, rfl, rfl, fun world => ?_⟩
  have hmeaning := formula_isTrue_iff_of_groundRow (s := .empty ⟨[⟨0⟩], ⟨1⟩, ⟨2⟩⟩ 0.0)
    (w := ⟨.fresh (.deferring 0.5), []⟩) (g := acquaintanceClause) hmake hfresh rfl rfl
    (Valuation.ofAssignment_extends twoPersons) world
  simpa only [acquaintanceClause, List.mem_singleton, exists_eq_left] using hmeaning

end LogicalRule

end RuleGrounding
