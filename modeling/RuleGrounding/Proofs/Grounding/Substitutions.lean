import RuleGrounding.Proofs.Activation.NewAnswers
import RuleGrounding.Proofs.Grounding.Expansion
import RuleGrounding.Proofs.Grounding.Meaning

/-!
# Ground clauses and substitutions

The answers to the body of a rule are substitutions of its variables. Those that leave
something of the clause once its functional literals are decided are grounded, each to
one instance of the clause; the others are dropped.
-/

namespace RuleGrounding

/-- A functional literal is true as it is computed. -/
def Literal.ComputesTrue (l : Literal) (σ : Valuation) : Prop :=
  ∀ builtin, l.atom.predicate.kind = .functional builtin →
    (0.0 < builtin.value (l.atom.instanceArgs σ) ↔ l.negated = false)

/-- A functional literal is true as its atom is read, which has the value that it has been assigned,
or else the computed one. -/
def Literal.ReadsTrue (assigned : GroundKey → Option Float) (l : Literal) (σ : Valuation) : Prop :=
  ∀ builtin, l.atom.predicate.kind = .functional builtin →
    (0.0 < builtin.presentValue (l.atom.instanceArgs σ)
      ((GroundKey.make l.atom.predicate (l.atom.instanceArgs σ)).toOption.bind assigned) ↔
        l.negated = false)

/-- As long as functional atoms have been assigned nothing, they are read as they are computed. -/
theorem Literal.readsTrue_iff {assigned : GroundKey → Option Float}
    (hnone : ∀ k, k.predicate.isStandard = false → assigned k = none) {l : Literal}
    {σ : Valuation} : l.ReadsTrue assigned σ ↔ l.ComputesTrue σ := by
  refine forall_congr' fun builtin => forall_congr' fun hkind => ?_
  have hunassigned : (GroundKey.make l.atom.predicate (l.atom.instanceArgs σ)).toOption.bind
      assigned = none := by
    cases hk : GroundKey.make l.atom.predicate (l.atom.instanceArgs σ) with
    | error fault => rfl
    | ok k =>
      refine hnone k ?_
      rw [(GroundKey.make_eq_ok hk).1, Predicate.isStandard, hkind]
      rfl
  rw [hunassigned, Builtin.presentValue, Option.map_none, Option.getD_none]

namespace Conjunction

/-- The atoms of the positive standard literals, in order. -/
def denied (c : Conjunction) : List Atom := (c.filter Literal.generates).map Literal.atom

/-- The atoms of the negated standard literals, in order. -/
def asserted (c : Conjunction) : List Atom :=
  (c.filter fun l => l.negated && l.atom.predicate.isStandard).map Literal.atom

theorem denied_concat (c : Conjunction) (l : Literal) :
    denied (c ++ [l]) = if l.generates then c.denied ++ [l.atom] else c.denied := by
  rw [denied, List.filter_append, List.map_append]
  by_cases hl : l.generates = true <;> simp [denied, hl]

theorem asserted_concat (c : Conjunction) (l : Literal) :
    asserted (c ++ [l]) =
      if l.negated && l.atom.predicate.isStandard then c.asserted ++ [l.atom] else c.asserted := by
  rw [asserted, List.filter_append, List.map_append]
  by_cases hl : (l.negated && l.atom.predicate.isStandard) = true <;> simp [asserted, hl]

/-- Only a conjunction of functional literals has no atoms on either side. -/
theorem exists_standard_iff (c : Conjunction) :
    (∃ l ∈ c, l.atom.predicate.isStandard = true) ↔ c.denied ≠ [] ∨ c.asserted ≠ [] := by
  simp only [denied, asserted, ne_eq, List.map_eq_nil_iff, List.filter_eq_nil_iff,
    Bool.and_eq_true, not_forall, not_not, exists_prop, Literal.generates, Bool.not_eq_true']
  constructor
  · rintro ⟨l, hl, hstandard⟩
    cases hnegated : l.negated with
    | false => exact .inl ⟨l, hl, hnegated, hstandard⟩
    | true => exact .inr ⟨l, hl, hnegated, hstandard⟩
  · rintro (⟨l, hl, -, hstandard⟩ | ⟨l, hl, -, hstandard⟩)
    · exact ⟨l, hl, hstandard⟩
    · exact ⟨l, hl, hstandard⟩

end Conjunction

/-- The manager gives out these instances for some atoms under a valuation. -/
def Manager.GivesInstances (m : Manager) (σ : Valuation) (atoms : List Atom) (hs : List Handle) :
    Prop :=
  List.Forall₂ (fun a h => m.GivesInstance a.predicate (a.instanceArgs σ) h) atoms hs

theorem Manager.GivesInstances.later {m m' : Manager} {σ : Valuation} {atoms : List Atom}
    {hs : List Handle} (h : m.GivesInstances σ atoms hs) (hgrows : m.Grows m') :
    m'.GivesInstances σ atoms hs :=
  h.imp fun _ _ ha => ha.later hgrows

/-- The sides are the instance of a clause whose negation is a conjunction. -/
structure ClauseSides.IsInstance (m : Manager) (σ : Valuation) (c : Conjunction)
    (sides : ClauseSides) : Prop where
  /-- The positive standard literals are denied. -/
  negative : m.GivesInstances σ c.denied sides.negative
  /-- The negated standard literals are asserted. -/
  positive : m.GivesInstances σ c.asserted sides.positive

namespace ClauseSides.IsInstance

variable {m m' : Manager} {σ : Valuation} {c : Conjunction} {sides : ClauseSides} {l : Literal}
  {h : Handle}

theorem later (hs : sides.IsInstance m σ c) (hgrows : m.Grows m') : sides.IsInstance m' σ c :=
  ⟨hs.negative.later hgrows, hs.positive.later hgrows⟩

/-- A standard literal puts the instance of its atom on its side. -/
theorem add (hs : sides.IsInstance m σ c) (hstandard : l.atom.predicate.isStandard = true)
    (hh : m.GivesInstance l.atom.predicate (l.atom.instanceArgs σ) h) :
    (sides.add l.negated h).IsInstance m σ (c ++ [l]) := by
  have hone : m.GivesInstances σ [l.atom] [h] := .cons hh .nil
  rw [ClauseSides.add]
  cases hnegated : l.negated with
  | false =>
    have hgenerates : l.generates = true := by simp [Literal.generates, hnegated, hstandard]
    constructor
    · rw [Conjunction.denied_concat, if_pos hgenerates]
      exact List.rel_append hs.negative hone
    · rw [Conjunction.asserted_concat, hnegated]
      exact hs.positive
  | true =>
    have hgenerates : ¬ l.generates = true := by simp [Literal.generates, hnegated]
    constructor
    · rw [Conjunction.denied_concat, if_neg hgenerates]
      exact hs.negative
    · rw [Conjunction.asserted_concat, hnegated, hstandard]
      exact List.rel_append hs.positive hone

/-- A functional literal leaves no atom in the clause. -/
theorem skip (hs : sides.IsInstance m σ c) (hfunctional : ¬ l.atom.predicate.isStandard = true) :
    sides.IsInstance m σ (c ++ [l]) := by
  have hgenerates : ¬ l.generates = true := by simp [Literal.generates, hfunctional]
  have hasserts : ¬ (l.negated && l.atom.predicate.isStandard) = true := by simp [hfunctional]
  constructor
  · rw [Conjunction.denied_concat, if_neg hgenerates]
    exact hs.negative
  · rw [Conjunction.asserted_concat, if_neg hasserts]
    exact hs.positive

/-- Both sides are empty if the conjunction has no standard literal. -/
theorem isEmpty_iff (hs : sides.IsInstance m σ c) :
    (sides.positive.isEmpty && sides.negative.isEmpty) = true ↔
      ¬ ∃ l ∈ c, l.atom.predicate.isStandard = true := by
  have hnegative : c.denied = [] ↔ sides.negative = [] := by
    rw [← List.length_eq_zero_iff, ← List.length_eq_zero_iff, hs.negative.length_eq]
  have hpositive : c.asserted = [] ↔ sides.positive = [] := by
    rw [← List.length_eq_zero_iff, ← List.length_eq_zero_iff, hs.positive.length_eq]
  rw [Conjunction.exists_standard_iff, not_or, not_not, not_not, hnegative, hpositive,
    Bool.and_eq_true, List.isEmpty_iff, List.isEmpty_iff, and_comm]

end ClauseSides.IsInstance

namespace LogicalRule

variable {r : LogicalRule} {s : Store} {σ τ : Valuation} {θ : Assignment} {w w' : Workspace}
  {assigned : GroundKey → Option Float}

/-- A substitution leaves something of the clause: its functional literals are true in the negation
of the clause, so that they do not make it true, and it has other literals. -/
structure Leaves (r : LogicalRule) (σ : Valuation) : Prop where
  /-- The functional literals do not make the clause true. -/
  computed : ∀ l ∈ r.clause, l.ComputesTrue σ
  /-- There are standard literals. -/
  standard : ∃ l ∈ r.clause, l.atom.predicate.isStandard = true

/-- A substitution leaves something of the clause when functional literals are read. -/
structure LeavesAsRead (r : LogicalRule) (assigned : GroundKey → Option Float) (σ : Valuation) :
    Prop where
  /-- The functional literals do not make the clause true. -/
  read : ∀ l ∈ r.clause, l.ReadsTrue assigned σ
  /-- There are standard literals. -/
  standard : ∃ l ∈ r.clause, l.atom.predicate.isStandard = true

/-- As long as functional atoms have been assigned nothing, that is what is left when functional
literals are computed. -/
theorem leavesAsRead_iff (hnone : ∀ k, k.predicate.isStandard = false → assigned k = none) :
    r.LeavesAsRead assigned σ ↔ r.Leaves σ :=
  ⟨fun h => ⟨fun l hl => (Literal.readsTrue_iff hnone).mp (h.read l hl), h.standard⟩,
    fun h => ⟨fun l hl => (Literal.readsTrue_iff hnone).mpr (h.computed l hl), h.standard⟩⟩

/-- A substitution for which the rule has a ground clause. -/
structure Admits (r : LogicalRule) (s : Store) (σ : Valuation) : Prop where
  /-- The atoms of the body are stored. -/
  stored : ∀ l ∈ r.clause, l.negated = false → l.atom.predicate.isStandard = true →
    ∃ stored, s.Holds l.atom.predicate (l.atom.instanceArgs σ) stored
  /-- Functional literals of the body are true. -/
  body : ∀ l ∈ r.clause, l.negated = false → ∀ builtin,
    l.atom.predicate.kind = .functional builtin → 0.0 < builtin.value (l.atom.instanceArgs σ)
  /-- Functional literals of the head are not true. -/
  head : ∀ l ∈ r.clause, l.negated = true → ∀ builtin,
    l.atom.predicate.kind = .functional builtin → ¬ 0.0 < builtin.value (l.atom.instanceArgs σ)
  /-- There are standard literals. -/
  standard : ∃ l ∈ r.clause, l.atom.predicate.isStandard = true

/-- A ground clause is the instance of the rule under a substitution. -/
structure GroundsTo (r : LogicalRule) (m : Manager) (σ : Valuation) (g : GroundClause) : Prop where
  /-- It has the name of the rule. -/
  rule : g.rule = r.name
  /-- It has the weight of the rule. -/
  weight : g.weight = r.weight
  /-- It denies the instances of the positive literals, in order. -/
  negative : m.GivesInstances σ r.clause.denied g.negative
  /-- It asserts the instances of the negated literals, in order. -/
  positive : m.GivesInstances σ r.clause.asserted g.positive

theorem GroundsTo.later {m m' : Manager} {g : GroundClause} (h : r.GroundsTo m σ g)
    (hgrows : m.Grows m') : r.GroundsTo m' σ g :=
  ⟨h.rule, h.weight, h.negative.later hgrows, h.positive.later hgrows⟩

/-- The substitutions with a ground clause are the answers to the body that leave something of the
clause. -/
theorem admits_iff : r.Admits s σ ↔ r.SatisfiedBy s σ ∧ r.Leaves σ := by
  constructor
  · intro h
    refine ⟨fun l hl => ?_, fun l hl builtin hkind => ?_, h.standard⟩
    · have hnegated := negated_of_mem_query hl
      cases hkind : l.atom.predicate.kind with
      | standard =>
        simp only [Literal.HoldsIn, hnegated, hkind]
        exact h.stored l (mem_clause_of_mem_query hl) hnegated (decide_eq_true hkind)
      | functional builtin =>
        simp only [Literal.HoldsIn, hnegated, hkind]
        exact h.body l (mem_clause_of_mem_query hl) hnegated builtin hkind
    · cases hnegated : l.negated with
      | false => exact iff_of_true (h.body l hl hnegated builtin hkind) rfl
      | true => exact iff_of_false (h.head l hl hnegated builtin hkind) (by decide)
  · rintro ⟨hbody, hleaves⟩
    refine ⟨fun l hl hnegated hstandard => ?_, fun l hl hnegated builtin hkind => ?_,
      fun l hl hnegated builtin hkind => ?_, hleaves.standard⟩
    · have hkind : l.atom.predicate.kind = .standard := of_decide_eq_true hstandard
      have hholds := hbody l (List.mem_filter.mpr ⟨hl, by simp [hnegated]⟩)
      simpa only [Literal.HoldsIn, hnegated, hkind] using hholds
    · exact (hleaves.computed l hl builtin hkind).mpr hnegated
    · rw [hleaves.computed l hl builtin hkind, hnegated]
      decide

/-- Whether a body is satisfied can be read off the row. -/
theorem satisfiedBy_of_map_eq (h : r.vars.map σ = r.vars.map τ) (hτ : r.SatisfiedBy s τ) :
    r.SatisfiedBy s σ := by
  intro l hl
  have hargs := instanceArgs_of_map_eq h (mem_clause_of_mem_query hl)
  have hholds := hτ l hl
  rw [Literal.HoldsIn] at hholds ⊢
  rwa [hargs]

/-- A literal that is resolved is resolved to the instance of its atom. -/
theorem resolveLiteral_eq_ok (hσ : σ.Extends θ) (hw : w.manager.Reflects assigned)
    {l : Literal} {h : Handle} (hrun : (resolveLiteral s θ l).runOn w = (.ok h, w')) :
    w'.manager.Reflects assigned ∧ w.Resolves w' ∧
      w'.manager.GivesInstance l.atom.predicate (l.atom.instanceArgs σ) h := by
  rw [resolveLiteral] at hrun
  split at hrun
  · exact absurd hrun Grounding.runOn_throw_ne_ok
  · rename_i args hargs
    obtain ⟨m, hm, rfl⟩ := Grounding.runOn_resolve_eq_ok_iff.mp hrun
    obtain ⟨k, hk, hm⟩ := Manager.resolve_eq_ok_iff.mp hm
    obtain ⟨hpredicate, hkargs⟩ := GroundKey.make_eq_ok hk
    obtain ⟨hsound, hgrows, rfl, hgives⟩ := Manager.resolveKey_sound_grows hw.sound hm
    have hreflects := hw.extend (Manager.extends_of_resolveKey hm) hsound
    refine ⟨hreflects, ⟨hsound, hgrows, rfl⟩, hgives, hpredicate, ?_⟩
    rw [hkargs, Atom.eq_instanceArgs_of_groundArgs hσ hargs]

/-- Once a literal is resolved it is decided: one that is not true as it is read ends the grounding
of the clause, and after any other the clause has the instance of one more literal. -/
theorem runOn_groundLiterals_cons (hσ : σ.Extends θ) (hw : w.manager.Reflects assigned)
    {l : Literal} {h : Handle} (hrun : (resolveLiteral s θ l).runOn w = (.ok h, w'))
    (ls : Conjunction) (sides : ClauseSides) :
    (¬ l.ReadsTrue assigned σ ∧
        (groundLiterals s θ (l :: ls) sides).runOn w = (.ok none, w')) ∨
      ∃ sides', l.ReadsTrue assigned σ ∧
        (groundLiterals s θ (l :: ls) sides).runOn w = (groundLiterals s θ ls sides').runOn w' ∧
        ∀ done, sides.IsInstance w.manager σ done →
          sides'.IsInstance w'.manager σ (done ++ [l]) := by
  obtain ⟨hw', hresolves, hh⟩ := resolveLiteral_eq_ok hσ hw hrun
  rw [groundLiterals, Grounding.runOn_bind, hrun]
  dsimp only
  by_cases hstandard : l.atom.predicate.isStandard = true
  · rw [if_pos hstandard]
    refine .inr ⟨_, fun builtin hkind => ?_, rfl, fun done hsides => ?_⟩
    · rw [Predicate.isStandard, hkind] at hstandard
      cases hstandard
    · exact (hsides.later hresolves.grows).add hstandard hh
  · rw [if_neg hstandard, Grounding.runOn_bind, Grounding.runOn_valueOf]
    dsimp only
    obtain ⟨builtin, hkind⟩ : ∃ builtin, l.atom.predicate.kind = .functional builtin := by
      cases hkind : l.atom.predicate.kind with
      | standard => exact absurd (decide_eq_true hkind) hstandard
      | functional builtin => exact ⟨builtin, rfl⟩
    -- The atom has the value that it has been assigned, or the computed one.
    have hkey : GroundKey.make l.atom.predicate (l.atom.instanceArgs σ) = .ok h.key := by
      rw [← hh.predicate, ← hh.args, GroundKey.make_self]
    have hvalue := hw'.value h builtin hh.gives (hh.predicate ▸ hkind)
    rw [hh.args] at hvalue
    have hdecides : l.ReadsTrue assigned σ ↔
        ¬ decide (0.0 < w'.manager.pool.value h) = l.negated := by
      rw [Literal.ReadsTrue, hkind, hkey, Except.toOption, Option.bind_some, hvalue]
      cases l.negated <;> simp
    split
    · rename_i hdrop
      exact .inl ⟨fun htrue => hdecides.mp htrue hdrop, rfl⟩
    · rename_i hkeep
      refine .inr ⟨sides, hdecides.mpr hkeep, rfl, fun done hsides => ?_⟩
      exact (hsides.later hresolves.grows).skip hstandard

/-- Grounding the literals of a clause in order ends without a result if a functional literal makes
the clause true. Otherwise none does, and the result is the instance of the clause. -/
theorem groundLiterals_eq_ok (hσ : σ.Extends θ) {ls done : Conjunction} {sides : ClauseSides}
    {result : Option ClauseSides} (hw : w.manager.Reflects assigned)
    (hsides : sides.IsInstance w.manager σ done)
    (hrun : (groundLiterals s θ ls sides).runOn w = (.ok result, w')) :
    w'.manager.Reflects assigned ∧ w.Resolves w' ∧
      ((result = none ∧ ∃ l ∈ ls, ¬ l.ReadsTrue assigned σ) ∨
        ∃ final, result = some final ∧ (∀ l ∈ ls, l.ReadsTrue assigned σ) ∧
          final.IsInstance w'.manager σ (done ++ ls)) := by
  induction ls generalizing done sides w with
  | nil =>
    obtain ⟨rfl, rfl⟩ := Grounding.runOn_pure_eq_ok_iff.mp hrun
    refine ⟨hw, ⟨hw.sound, .refl _, rfl⟩, .inr ⟨sides, rfl, ?_, ?_⟩⟩
    · exact fun l hl => absurd hl List.not_mem_nil
    · rwa [List.append_nil]
  | cons l ls ih =>
    have hfirst := hrun
    rw [groundLiterals] at hfirst
    obtain ⟨h, w₁, hresolve, -⟩ := Grounding.runOn_bind_eq_ok_iff.mp hfirst
    obtain ⟨hw₁, hresolves, -⟩ := resolveLiteral_eq_ok hσ hw hresolve
    rcases runOn_groundLiterals_cons hσ hw hresolve ls sides with
      ⟨hfalse, hend⟩ | ⟨sides', hl, hrest, hinstance⟩
    · rw [hend] at hrun
      cases hrun
      exact ⟨hw₁, hresolves, .inl ⟨rfl, l, List.mem_cons_self, hfalse⟩⟩
    · rw [hrest] at hrun
      obtain ⟨hw', hresolves', hend⟩ := ih hw₁ (hinstance done hsides) hrun
      refine ⟨hw', hresolves.trans hresolves', ?_⟩
      rcases hend with ⟨hnone, l', hl', hfalse⟩ | ⟨final, hfinal, hall, hfinalInstance⟩
      · exact .inl ⟨hnone, l', List.mem_cons_of_mem l hl', hfalse⟩
      · refine .inr ⟨final, hfinal, List.forall_mem_cons.mpr ⟨hl, hall⟩, ?_⟩
        rwa [List.append_assoc] at hfinalInstance

/-- Grounding a row produces the ground clause of its substitution, or nothing if the substitution
leaves nothing of the clause. -/
theorem groundRow_eq_ok (hσ : σ.Extends θ) (hw : w.manager.Reflects assigned) {n : Nat}
    (hrun : (r.groundRow s θ).runOn w = (.ok n, w')) :
    w'.manager.Reflects assigned ∧ w.manager.Grows w'.manager ∧
      ((n = 0 ∧ ¬ r.LeavesAsRead assigned σ ∧ w'.rules = w.rules) ∨
        ∃ g, n = 1 ∧ r.LeavesAsRead assigned σ ∧ r.GroundsTo w'.manager σ g ∧
          w'.rules = w.rules ++ [GroundRule.logical g]) := by
  rw [groundRow] at hrun
  obtain ⟨result, w₁, hliterals, hrun⟩ := Grounding.runOn_bind_eq_ok_iff.mp hrun
  have hempty : ClauseSides.empty.IsInstance w.manager σ [] := ⟨.nil, .nil⟩
  obtain ⟨hw₁, hresolves, hend⟩ := groundLiterals_eq_ok hσ hw hempty hliterals
  rcases hend with ⟨rfl, l, hl, hfalse⟩ | ⟨final, rfl, hall, hinstance⟩
  · obtain ⟨rfl, rfl⟩ := Grounding.runOn_pure_eq_ok_iff.mp hrun
    refine ⟨hw₁, hresolves.grows, .inl ⟨rfl, ?_, hresolves.rules⟩⟩
    exact fun hleaves => hfalse (hleaves.read l hl)
  · rw [List.nil_append] at hinstance
    rw [Option.bind_some, clauseOf?] at hrun
    by_cases hnothing : (final.positive.isEmpty && final.negative.isEmpty) = true
    · rw [if_pos hnothing] at hrun
      obtain ⟨rfl, rfl⟩ := Grounding.runOn_pure_eq_ok_iff.mp hrun
      refine ⟨hw₁, hresolves.grows, .inl ⟨rfl, ?_, hresolves.rules⟩⟩
      exact fun hleaves => hinstance.isEmpty_iff.mp hnothing hleaves.standard
    · rw [if_neg hnothing] at hrun
      obtain ⟨_, w₂, hemit, hrun⟩ := Grounding.runOn_bind_eq_ok_iff.mp hrun
      obtain ⟨rfl, rfl⟩ := Grounding.runOn_pure_eq_ok_iff.mp hrun
      rw [Grounding.runOn_emit] at hemit
      obtain ⟨-, rfl⟩ := Prod.mk.inj hemit
      have hstandard := not_not.mp (mt hinstance.isEmpty_iff.mpr hnothing)
      refine ⟨hw₁, hresolves.grows, .inr ⟨⟨r.name, r.weight, final.positive, final.negative⟩,
        rfl, ⟨hall, hstandard⟩, ⟨rfl, rfl, hinstance.negative, hinstance.positive⟩, ?_⟩⟩
      rw [hresolves.rules]

/-- Grounding rows one after the other produces one ground clause for each row whose substitution
leaves something of the clause, in the order of the rows. -/
theorem groundRows_eq_ok {rows : List Row} (hrows : ∀ row ∈ rows, ∃ τ : Valuation,
      row = r.vars.map τ) (hw : w.manager.Reflects assigned) {n : Nat}
    (hrun : (r.groundRows s (rows.map (ResultList.assign r.vars))).runOn w = (.ok n, w')) :
    w.manager.Grows w'.manager ∧ ∃ kept clauses, kept.Sublist rows ∧
      (∀ σ, r.vars.map σ ∈ rows → (r.vars.map σ ∈ kept ↔ r.LeavesAsRead assigned σ)) ∧
      List.Forall₂ (fun row g => ∀ σ, r.vars.map σ = row → r.GroundsTo w'.manager σ g)
        kept clauses ∧
      w'.rules = w.rules ++ clauses.map .logical ∧ n = clauses.length := by
  induction rows generalizing w n with
  | nil =>
    obtain ⟨rfl, rfl⟩ := Grounding.runOn_pure_eq_ok_iff.mp hrun
    refine ⟨.refl _, [], [], .slnil, ?_, .nil, (List.append_nil _).symm, rfl⟩
    exact fun σ hσ => absurd hσ List.not_mem_nil
  | cons row rows ih =>
    obtain ⟨τ, rfl⟩ := hrows row List.mem_cons_self
    rw [List.map_cons, groundRows] at hrun
    obtain ⟨k, w₁, hrow, hrun⟩ := Grounding.runOn_bind_eq_ok_iff.mp hrun
    obtain ⟨l, w₂, hrest, hrun⟩ := Grounding.runOn_bind_eq_ok_iff.mp hrun
    obtain ⟨rfl, rfl⟩ := Grounding.runOn_pure_eq_ok_iff.mp hrun
    have hstep := fun (σ : Valuation) (hσ : r.vars.map σ = r.vars.map τ) =>
      groundRow_eq_ok (ResultList.extends_assign_iff.mpr hσ) hw hrow
    obtain ⟨hw₁, hgrows, hend⟩ := hstep τ rfl
    obtain ⟨hlater, kept, clauses, hsub, hleaves, hclauses, hrules, rfl⟩ :=
      ih (fun row hrow => hrows row (List.mem_cons_of_mem _ hrow)) hw₁ hrest
    refine ⟨hgrows.trans hlater, ?_⟩
    rcases hend with ⟨rfl, -, hsame⟩ | ⟨g, rfl, -, -, hnew⟩
    · have hnone : ∀ σ, r.vars.map σ = r.vars.map τ → ¬ r.LeavesAsRead assigned σ := by
        intro σ hσ
        rcases (hstep σ hσ).2.2 with ⟨-, hnone, -⟩ | ⟨g, hone, -⟩
        · exact hnone
        · cases hone
      refine ⟨kept, clauses, hsub.cons _, fun σ hσ => ?_, hclauses, ?_, Nat.zero_add _⟩
      · by_cases hmem : r.vars.map σ ∈ rows
        · exact hleaves σ hmem
        · have hfirst := (List.mem_cons.mp hσ).resolve_right hmem
          exact iff_of_false (fun hkept => hmem (hsub.subset hkept)) (hnone σ hfirst)
      · rw [hrules, hsame]
    · have hone : ∀ σ, r.vars.map σ = r.vars.map τ →
          r.LeavesAsRead assigned σ ∧ r.GroundsTo w₁.manager σ g := by
        intro σ hσ
        rcases (hstep σ hσ).2.2 with ⟨hzero, -, -⟩ | ⟨g', -, hleft, hinstance, hnew'⟩
        · cases hzero
        · rw [hnew] at hnew'
          cases List.append_cancel_left hnew'
          exact ⟨hleft, hinstance⟩
      refine ⟨_ :: kept, g :: clauses, hsub.cons_cons _, fun σ hσ => ?_, .cons ?_ hclauses, ?_,
        Nat.add_comm _ _⟩
      · by_cases hfirst : r.vars.map σ = r.vars.map τ
        · rw [hfirst]
          exact iff_of_true List.mem_cons_self (hone σ hfirst).1
        · have hmem := (List.mem_cons.mp hσ).resolve_left hfirst
          rw [List.mem_cons, or_iff_right hfirst]
          exact hleaves σ hmem
      · exact fun σ hσ => (hone σ hσ).2.later hlater
      · rw [hrules, hnew, List.append_assoc]
        rfl

/-- Instances of the clause of a rule have been appended, one for each substitution of its variables
that has a property, and they have been counted. -/
def AppendsInstances (r : LogicalRule) (P : Valuation → Prop) (w w' : Workspace) (n : Nat) : Prop :=
  ∃ (rows : List Row) (clauses : List GroundClause), rows.Nodup ∧
    (∀ row ∈ rows, ∃ σ : Valuation, row = r.vars.map σ) ∧
    (∀ σ : Valuation, r.vars.map σ ∈ rows ↔ P σ) ∧
    List.Forall₂ (fun row g => ∀ σ, r.vars.map σ = row → r.GroundsTo w'.manager σ g)
      rows clauses ∧
    w'.rules = w.rules ++ clauses.map .logical ∧ n = clauses.length

/-- Grounding a rule that was accepted appends the instances of its clause for the substitutions
that satisfy the body, as it is computed, and leave something of the clause, as it is read. -/
theorem ground_eq_ok {name : String} {f : Formula} {weight : Option Float}
    (hr : make name f weight = .ok r) (ha : ∀ a ∈ f.occurrences, a.HasArity)
    (hw : w.manager.Reflects assigned) {n : Nat}
    (hrun : (r.ground s).runOn w = (.ok n, w')) :
    r.AppendsInstances (fun σ => r.SatisfiedBy s σ ∧ r.LeavesAsRead assigned σ) w w' n := by
  have harities := hasArities_of_make hr ha
  rw [ground] at hrun
  obtain ⟨results, _, hquery, hrun⟩ := Grounding.runOn_bind_eq_ok_iff.mp hrun
  obtain ⟨heval, rfl⟩ := Grounding.runOn_query_eq_ok_iff.mp hquery
  obtain ⟨hnone, rfl⟩ := Query.evaluate_eq_ok_iff.mp heval
  rw [groundResults, assignments_answers] at hrun
  have hanswers : ∀ row, row ∈ (r.groundingQuery.answers s).rows ↔
      ∃ σ, r.SatisfiedBy s σ ∧ row = r.vars.map σ :=
    fun _ => mem_rows_groundingQuery harities hnone
  have hrows : ∀ row ∈ (r.groundingQuery.answers s).rows, ∃ σ : Valuation,
      row = r.vars.map σ := by
    intro row hrow
    obtain ⟨σ, -, hσ⟩ := (hanswers row).mp hrow
    exact ⟨σ, hσ⟩
  obtain ⟨-, kept, clauses, hsub, hleaves, hclauses, hrules, rfl⟩ := groundRows_eq_ok hrows hw hrun
  refine ⟨kept, clauses, hsub.nodup (Query.nodup_answers _ _),
    fun row hrow => hrows row (hsub.subset hrow), fun σ => ?_, hclauses, hrules, rfl⟩
  constructor
  · intro hkept
    obtain ⟨τ, hτ, he⟩ := (hanswers _).mp (hsub.subset hkept)
    refine ⟨?_, (hleaves σ (hsub.subset hkept)).mp hkept⟩
    exact satisfiedBy_of_map_eq he hτ
  · rintro ⟨hbody, hleft⟩
    exact (hleaves σ ((hanswers _).mpr ⟨σ, hbody, rfl⟩)).mpr hleft

/-- Grounding a rule that was accepted, under a manager whose functional atoms nobody has given a
value, appends exactly the instances of its clause: one for each substitution of its variables under
which the body is stored and computed to be true, no functional literal of the head is true, and the
clause has standard literals. The result counts them. -/
theorem ground_appends_instances_of_substitutions {name : String} {f : Formula}
    {weight : Option Float} (hr : make name f weight = .ok r)
    (ha : ∀ a ∈ f.occurrences, a.HasArity) (hw : w.manager.Untampered) {n : Nat}
    (hrun : (r.ground s).runOn w = (.ok n, w')) :
    ∃ (rows : List Row) (clauses : List GroundClause), rows.Nodup ∧
      (∀ row ∈ rows, ∃ σ : Valuation, row = r.vars.map σ) ∧
      (∀ σ : Valuation, r.vars.map σ ∈ rows ↔ r.Admits s σ) ∧
      List.Forall₂ (fun row g => ∀ σ, r.vars.map σ = row → r.GroundsTo w'.manager σ g)
        rows clauses ∧
      w'.rules = w.rules ++ clauses.map .logical ∧ n = clauses.length := by
  obtain ⟨rows, clauses, hnodup, hrows, hkept, hclauses, hrules, hn⟩ :=
    ground_eq_ok hr ha (Manager.evaluates_iff.mp hw.evaluates) hrun
  refine ⟨rows, clauses, hnodup, hrows, fun σ => ?_, hclauses, hrules, hn⟩
  rw [admits_iff, ← leavesAsRead_iff fun _ _ => rfl]
  exact hkept σ

/-- A store in which the first of two persons knows the second. -/
def acquaintedStore : Store :=
  (Store.empty ⟨[⟨0⟩], ⟨1⟩, ⟨2⟩⟩ 0.0).put firstKnowsSecond 1.0 ⟨0⟩

/-- The workspace in which the rule about acquaintances has been grounded over this store. -/
def acquaintedWork : Workspace :=
  ((acquaintanceRule.groundResults acquaintedStore
    ⟨[⟨"A"⟩, ⟨"B"⟩], [[.integer 1, .integer 2]]⟩).runOn ⟨.fresh (.deferring 0.5), []⟩).2

/-- The two persons are the only answer to the body. -/
theorem evaluate_acquaintanceRule : acquaintanceRule.groundingQuery.evaluate acquaintedStore =
    .ok ⟨[⟨"A"⟩, ⟨"B"⟩], [[.integer 1, .integer 2]]⟩ := by
  have hrows : acquaintedStore.candidates knowsAtom ∅ acquaintedStore.layout.contains =
      [[.integer 1, .integer 2]] :=
    List.mergeSort_singleton [Constant.integer 1, Constant.integer 2]
  have hgenerators : acquaintanceRule.groundingQuery.orderedGenerators acquaintedStore =
      [(knowsAtom, [[.integer 1, .integer 2]])] := by
    rw [Query.orderedGenerators_of_generators_eq (i := 0) (l := .positive knowsAtom) rfl]
    exact congrArg (fun rows => [(_, rows)]) hrows
  rw [Query.evaluate_eq_ok_iff]
  refine ⟨by decide, ?_⟩
  rw [Query.answers, Query.solutions, hgenerators]
  rfl

theorem runOn_ground_acquaintanceRule :
    (acquaintanceRule.ground acquaintedStore).runOn ⟨.fresh (.deferring 0.5), []⟩ =
      (.ok 1, acquaintedWork) := by
  rw [ground]
  refine Grounding.runOn_bind_eq_ok_iff.mpr ⟨_, _,
    Grounding.runOn_query_eq_ok_iff.mpr ⟨evaluate_acquaintanceRule, rfl⟩, ?_⟩
  rfl

/-- The rule is grounded once, for the first and the second person. -/
theorem acquaintance_grounds_once :
    make "acquaintance" acquaintance none = .ok acquaintanceRule ∧
      (∀ a ∈ acquaintance.occurrences, a.HasArity) ∧
      (Manager.fresh (.deferring 0.5)).Untampered ∧
      (acquaintanceRule.ground acquaintedStore).runOn ⟨.fresh (.deferring 0.5), []⟩ =
        (.ok 1, acquaintedWork) ∧
      acquaintedWork.rules = [.logical acquaintanceClause] ∧
      (∀ σ : Valuation, acquaintanceRule.Admits acquaintedStore σ ↔
        σ ⟨"A"⟩ = .integer 1 ∧ σ ⟨"B"⟩ = .integer 2) := by
  have hmake : make "acquaintance" acquaintance none = .ok acquaintanceRule := rfl
  have hatoms : ∀ a ∈ acquaintance.occurrences, a.HasArity := by decide
  have hfresh : (Manager.fresh (.deferring 0.5)).Untampered :=
    .renew (.fresh (.deferring 0.5)) (.deferring 0.5)
  have hrules : acquaintedWork.rules = [.logical acquaintanceClause] := rfl
  refine ⟨hmake, hatoms, hfresh, runOn_ground_acquaintanceRule, hrules, ?_⟩
  obtain ⟨rows, clauses, -, hrows, hadmits, hgrounds, hproduced, hcount⟩ :=
    ground_appends_instances_of_substitutions hmake hatoms hfresh runOn_ground_acquaintanceRule
  obtain ⟨g, rfl⟩ := List.length_eq_one_iff.mp hcount.symm
  have hclause : acquaintanceClause = g := by
    rw [hrules] at hproduced
    exact GroundRule.logical.inj (List.cons.inj hproduced).1
  obtain ⟨row, rest, hrow, hrest, rfl⟩ := List.forall₂_cons_right_iff.mp hgrounds
  obtain rfl := List.forall₂_nil_right_iff.mp hrest
  obtain ⟨τ, rfl⟩ := hrows row List.mem_cons_self
  -- The atom that the clause asserts names the two persons.
  have hasserted := (hrow τ rfl).positive
  rw [← hclause] at hasserted
  obtain ⟨h, hs, hknown, -, hhandles⟩ := List.forall₂_cons_left_iff.mp hasserted
  have hargs := hknown.args
  rw [← (List.cons.inj hhandles).1] at hargs
  have hpair : [.integer 2, .integer 1] = [τ ⟨"B"⟩, τ ⟨"A"⟩] := hargs
  obtain ⟨hsecond, hrest⟩ := List.cons.inj hpair
  have hfirst := (List.cons.inj hrest).1
  have hvars : acquaintanceRule.vars = [⟨"A"⟩, ⟨"B"⟩] := rfl
  intro σ
  rw [← hadmits σ, List.mem_singleton, hvars, hfirst, hsecond]
  simp

end LogicalRule

end RuleGrounding
