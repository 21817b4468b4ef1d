import RuleGrounding.Grounding.Rules
import RuleGrounding.Proofs.Grounding.Steps
import RuleGrounding.Proofs.Manager.Computing
import RuleGrounding.Proofs.Query.Unions

/-!
# Ground clauses by their keys

What a row of a logical rule is grounded to depends on the row alone, as long as
instances are told apart by their keys: not on the store, not on what is resolved
already, and not on any truth value that can be set.
-/

namespace RuleGrounding

/-- What is compared of a ground rule: its rule's name and weight, and the keys of its atoms. -/
structure RuleOutline where
  /-- The name of the rule that was grounded. -/
  name : String
  /-- The weight of that rule, unless it is hard. -/
  weight : Option Float
  /-- The keys of the asserted atoms, or of all atoms of a constraint. -/
  positive : List GroundKey
  /-- The keys of the denied atoms. -/
  negative : List GroundKey

/-- The outline of a ground rule. -/
def GroundRule.outline : GroundRule → RuleOutline
  | logical g => ⟨g.rule, g.weight, g.positive.map Handle.key, g.negative.map Handle.key⟩
  | arithmetic g => ⟨g.rule, g.weight, g.atoms.map Handle.key, []⟩

/-- The keys on both sides of a clause. -/
structure ClauseKeys where
  /-- The keys of the asserted atoms. -/
  positive : List GroundKey
  /-- The keys of the denied atoms. -/
  negative : List GroundKey

/-- Put a key on the side on which the atom of a literal is put. -/
def ClauseKeys.add (keys : ClauseKeys) (negated : Bool) (k : GroundKey) : ClauseKeys :=
  if negated then { keys with positive := keys.positive ++ [k] }
  else { keys with negative := keys.negative ++ [k] }

/-- The keys of the atoms on both sides. -/
def ClauseSides.keys (sides : ClauseSides) : ClauseKeys :=
  ⟨sides.positive.map Handle.key, sides.negative.map Handle.key⟩

theorem ClauseSides.keys_add (sides : ClauseSides) (negated : Bool) (h : Handle) :
    (sides.add negated h).keys = sides.keys.add negated h.key := by
  cases negated <;> simp [add, keys, ClauseKeys.add]

/-- What becomes of the literals of a clause under an assignment. -/
inductive RowOutcome where
  /-- Some literal has no ground atom. -/
  | refused
  /-- A functional literal makes the clause true. -/
  | dropped
  /-- The standard atoms make a clause. -/
  | clause (keys : ClauseKeys)

/-- The key of the ground atom of a literal under an assignment, if there is one. -/
def Literal.key? (θ : Assignment) (l : Literal) : Option GroundKey :=
  match l.atom.groundArgs θ with
  | .error _ => none
  | .ok args => (GroundKey.make l.atom.predicate args).toOption

theorem Literal.predicate_of_key? {θ : Assignment} {l : Literal} {k : GroundKey}
    (h : l.key? θ = some k) : k.predicate = l.atom.predicate := by
  rw [key?] at h
  split at h
  · cases h
  · rename_i args _
    cases hk : GroundKey.make l.atom.predicate args with
    | error fault =>
      rw [hk] at h
      cases h
    | ok k' =>
      rw [hk] at h
      cases h
      exact (GroundKey.make_eq_ok hk).1

/-- The manager computes afterwards, and ground rules of some outlines have been produced. -/
def Workspace.Emits (w w' : Workspace) (outlines : List RuleOutline) : Prop :=
  w'.manager.Computes ∧
    w'.rules.map GroundRule.outline = w.rules.map GroundRule.outline ++ outlines

theorem Workspace.Emits.refl {w : Workspace} (h : w.manager.Computes) : w.Emits w [] :=
  ⟨h, (List.append_nil _).symm⟩

theorem Workspace.Emits.trans {w₁ w₂ w₃ : Workspace} {first second : List RuleOutline}
    (h : w₁.Emits w₂ first) (h' : w₂.Emits w₃ second) : w₁.Emits w₃ (first ++ second) :=
  ⟨h'.1, by rw [h'.2, h.2, List.append_assoc]⟩

/-- Grounding the literals of a clause has ended with an outcome. -/
def RowOutcome.Describes (w : Workspace) :
    RowOutcome → Except GroundingFault (Option ClauseSides) × Workspace → Prop
  | refused, (.error _, _) => True
  | dropped, (.ok none, w') => w.Emits w' []
  | clause keys, (.ok (some sides), w') => w.Emits w' [] ∧ sides.keys = keys
  | _, _ => False

/-- The three ways in which grounding the literals of a clause ends. -/
theorem RowOutcome.Describes.cases {w : Workspace} {o : RowOutcome}
    {run : Except GroundingFault (Option ClauseSides) × Workspace} (h : o.Describes w run) :
    (o = .refused ∧ ∃ fault w', run = (.error fault, w')) ∨
      (o = .dropped ∧ ∃ w', run = (.ok none, w') ∧ w.Emits w' []) ∨
      ∃ sides w', o = .clause sides.keys ∧ run = (.ok (some sides), w') ∧ w.Emits w' [] := by
  rcases run with ⟨fault | _ | sides, w'⟩
  · cases o with
    | refused => exact .inl ⟨rfl, fault, w', rfl⟩
    | dropped => exact h.elim
    | clause keys => exact h.elim
  · cases o with
    | refused => exact h.elim
    | dropped => exact .inr (.inl ⟨rfl, w', rfl, h⟩)
    | clause keys => exact h.elim
  · cases o with
    | refused => exact h.elim
    | dropped => exact h.elim
    | clause keys => exact .inr (.inr ⟨sides, w', by rw [h.2], rfl, h.1⟩)

namespace LogicalRule

/-- What becomes of the literals of a clause, by their keys. -/
def outcome (θ : Assignment) : Conjunction → ClauseKeys → RowOutcome
  | [], keys => .clause keys
  | l :: ls, keys =>
    match l.key? θ with
    | none => .refused
    | some k =>
      match k.predicate.kind with
      | .standard => outcome θ ls (keys.add l.negated k)
      | .functional builtin =>
        if decide (0.0 < builtin.value k.args) = l.negated then .dropped else outcome θ ls keys

/-- What becomes of a row of a rule. -/
def rowOutcome (r : LogicalRule) (row : Row) : RowOutcome :=
  outcome (ResultList.assign r.vars row) r.clause ⟨[], []⟩

/-- The outlines of the ground clauses of a row: none or one. -/
def outlines (r : LogicalRule) (row : Row) : List RuleOutline :=
  match r.rowOutcome row with
  | .clause keys =>
    if keys.positive.isEmpty && keys.negative.isEmpty then []
    else [⟨r.name, r.weight, keys.positive, keys.negative⟩]
  | _ => []

variable {s : Store} {w w' : Workspace}

/-- A literal with a key is resolved to an instance of it, and one without is refused. -/
theorem runOn_resolveLiteral (hw : w.manager.Computes) (θ : Assignment) (l : Literal) :
    match l.key? θ with
    | none => ∃ fault, (resolveLiteral s θ l).runOn w = (.error fault, w)
    | some k => ∃ h m, (resolveLiteral s θ l).runOn w = (.ok h, { w with manager := m }) ∧
        m.Computes ∧ m.Gives h ∧ h.key = k := by
  rw [resolveLiteral, Literal.key?]
  cases l.atom.groundArgs θ with
  | error v => exact ⟨_, rfl⟩
  | ok args =>
    dsimp only
    rw [Grounding.runOn_resolve, Manager.resolve]
    cases GroundKey.make l.atom.predicate args with
    | error fault => exact ⟨_, rfl⟩
    | ok k =>
      obtain ⟨h, m, hr, hm, hgives, hkey⟩ := hw.resolveKey s k
      dsimp only [Except.toOption]
      rw [hr]
      exact ⟨h, m, rfl, hm, hgives, hkey⟩

/-- Grounding the literals of a clause ends as their keys say. -/
theorem describes_groundLiterals (hw : w.manager.Computes) (θ : Assignment) (ls : Conjunction)
    (sides : ClauseSides) :
    (outcome θ ls sides.keys).Describes w ((groundLiterals s θ ls sides).runOn w) := by
  induction ls generalizing w sides with
  | nil => exact ⟨.refl hw, rfl⟩
  | cons l ls ih =>
    have hresolve := runOn_resolveLiteral (s := s) hw θ l
    rw [outcome, groundLiterals, Grounding.runOn_bind]
    cases hk : l.key? θ with
    | none =>
      rw [hk] at hresolve
      obtain ⟨fault, hfault⟩ := hresolve
      rw [hfault]
      trivial
    | some k =>
      rw [hk] at hresolve
      obtain ⟨h, m, hok, hm, hgives, rfl⟩ := hresolve
      rw [hok, ← Literal.predicate_of_key? hk, Predicate.isStandard]
      dsimp only
      cases hkind : h.key.predicate.kind with
      | standard =>
        have hrest := ih (w := { w with manager := m }) hm (sides.add l.negated h)
        rw [ClauseSides.keys_add] at hrest
        rw [if_pos (decide_eq_true rfl)]
        exact hrest
      | functional builtin =>
        have hvalue := hm.computed h builtin hgives hkind
        rw [if_neg (by simp), Grounding.runOn_bind, Grounding.runOn_valueOf]
        dsimp only
        rw [hvalue]
        split
        · rw [Grounding.runOn_pure]
          exact ⟨hm, (List.append_nil _).symm⟩
        · exact ih (w := { w with manager := m }) hm sides

/-- A row whose literals all have ground atoms, as far as they are looked at. -/
def Accepts (r : LogicalRule) (row : Row) : Prop := r.rowOutcome row ≠ .refused

/-- The ground clause with some sides has the outline of their keys. -/
theorem outline_clauseOf? (r : LogicalRule) (sides : ClauseSides) :
    (r.clauseOf? sides).toList.map GroundRule.outline =
      if sides.keys.positive.isEmpty && sides.keys.negative.isEmpty then []
      else [⟨r.name, r.weight, sides.keys.positive, sides.keys.negative⟩] := by
  rw [clauseOf?, ClauseSides.keys, List.isEmpty_map, List.isEmpty_map]
  split <;> rfl

/-- Grounding a row fails if some literal has no ground atom, and otherwise produces the outlines
of the row. -/
theorem runOn_groundRow (hw : w.manager.Computes) (r : LogicalRule) (row : Row) :
    (¬ r.Accepts row ∧ ∃ fault w',
      (r.groundRow s (ResultList.assign r.vars row)).runOn w = (.error fault, w')) ∨
    (r.Accepts row ∧ ∃ n w',
      (r.groundRow s (ResultList.assign r.vars row)).runOn w = (.ok n, w') ∧
        w.Emits w' (r.outlines row)) := by
  have hdescribes : (r.rowOutcome row).Describes w _ :=
    describes_groundLiterals (s := s) hw (ResultList.assign r.vars row) r.clause .empty
  rw [Accepts, outlines, groundRow, Grounding.runOn_bind]
  rcases hdescribes.cases with ⟨ho, fault, w', hrun⟩ | ⟨ho, w', hrun, hemits⟩ |
    ⟨sides, w', ho, hrun, hemits⟩
  · rw [ho, hrun]
    exact .inl ⟨fun h => h rfl, fault, w', rfl⟩
  · rw [ho, hrun]
    exact .inr ⟨(fun h => by cases h), 0, w', rfl, hemits⟩
  · rw [ho, hrun]
    refine .inr ⟨(fun h => by cases h), ?_⟩
    dsimp only
    rw [← r.outline_clauseOf? sides, Option.bind_some]
    cases r.clauseOf? sides with
    | none => exact ⟨0, w', rfl, hemits⟩
    | some g =>
      refine ⟨1, { w' with rules := w'.rules ++ [g] }, rfl, hemits.1, ?_⟩
      rw [List.map_append, hemits.2, List.append_nil]
      rfl

/-- Grounding rows that succeeds has accepted all of them and produced their outlines. -/
theorem emits_of_groundRows (r : LogicalRule) {rows : List Row} (hw : w.manager.Computes) {n : Nat}
    (h : (r.groundRows s (rows.map (ResultList.assign r.vars))).runOn w = (.ok n, w')) :
    (∀ row ∈ rows, r.Accepts row) ∧ w.Emits w' (rows.flatMap r.outlines) := by
  induction rows generalizing w n with
  | nil =>
    obtain ⟨-, rfl⟩ := Grounding.runOn_pure_eq_ok_iff.mp h
    exact ⟨fun row hrow => absurd hrow List.not_mem_nil, .refl hw⟩
  | cons row rows ih =>
    rw [List.map_cons, groundRows] at h
    obtain ⟨k, w₁, hrow, h⟩ := Grounding.runOn_bind_eq_ok_iff.mp h
    obtain ⟨l, w₂, hrest, h⟩ := Grounding.runOn_bind_eq_ok_iff.mp h
    obtain ⟨-, rfl⟩ := Grounding.runOn_pure_eq_ok_iff.mp h
    rcases runOn_groundRow (s := s) hw r row with ⟨-, fault, w₃, hfault⟩ |
      ⟨haccepts, k', w₃, hok, hemits⟩
    · rw [hfault] at hrow
      cases hrow
    · rw [hok] at hrow
      obtain ⟨-, rfl⟩ := Prod.mk.inj hrow
      obtain ⟨hrows, hlater⟩ := ih hemits.1 hrest
      refine ⟨fun row' hrow' => ?_, hemits.trans hlater⟩
      rcases List.mem_cons.mp hrow' with rfl | hrow'
      · exact haccepts
      · exact hrows row' hrow'

/-- Grounding rows that are all accepted succeeds. -/
theorem groundRows_of_accepts (r : LogicalRule) {rows : List Row} (hw : w.manager.Computes)
    (hrows : ∀ row ∈ rows, r.Accepts row) :
    ∃ n w', (r.groundRows s (rows.map (ResultList.assign r.vars))).runOn w = (.ok n, w') := by
  induction rows generalizing w with
  | nil => exact ⟨0, w, rfl⟩
  | cons row rows ih =>
    rcases runOn_groundRow (s := s) hw r row with ⟨hnot, -⟩ | ⟨-, k, w₁, hok, hemits⟩
    · exact absurd (hrows row List.mem_cons_self) hnot
    · obtain ⟨l, w₂, hrest⟩ :=
        ih hemits.1 fun row' hrow' => hrows row' (List.mem_cons_of_mem _ hrow')
      refine ⟨k + l, w₂, ?_⟩
      rw [List.map_cons, groundRows]
      exact Grounding.runOn_bind_eq_ok_iff.mpr ⟨k, w₁, hok,
        Grounding.runOn_bind_eq_ok_iff.mpr ⟨l, w₂, hrest, rfl⟩⟩

/-- The query of the rule is not refused, nor is any row of its answer. -/
structure Groundable (r : LogicalRule) (s : Store) : Prop where
  /-- The query is well formed. -/
  query : r.groundingQuery.fault? = none
  /-- Every row is accepted. -/
  rows : ∀ row ∈ (r.groundingQuery.answers s).rows, r.Accepts row

/-- The outlines of the ground clauses over a store. -/
def outlinesOver (r : LogicalRule) (s : Store) : List RuleOutline :=
  (r.groundingQuery.answers s).rows.flatMap r.outlines

theorem assignments_answers (r : LogicalRule) (s : Store) :
    (r.groundingQuery.answers s).assignments =
      (r.groundingQuery.answers s).rows.map (ResultList.assign r.vars) := by
  rw [ResultList.assignments, Query.vars_answers]
  rfl

theorem emits_of_ground (r : LogicalRule) (hw : w.manager.Computes) {n : Nat}
    (h : (r.ground s).runOn w = (.ok n, w')) :
    r.Groundable s ∧ w.Emits w' (r.outlinesOver s) := by
  rw [ground] at h
  obtain ⟨results, _, hquery, h⟩ := Grounding.runOn_bind_eq_ok_iff.mp h
  obtain ⟨heval, rfl⟩ := Grounding.runOn_query_eq_ok_iff.mp hquery
  obtain ⟨hnone, rfl⟩ := Query.evaluate_eq_ok_iff.mp heval
  rw [groundResults, assignments_answers] at h
  obtain ⟨hrows, hemits⟩ := r.emits_of_groundRows hw h
  exact ⟨⟨hnone, hrows⟩, hemits⟩

theorem ground_of_groundable (r : LogicalRule) (hw : w.manager.Computes) (h : r.Groundable s) :
    ∃ n w', (r.ground s).runOn w = (.ok n, w') := by
  obtain ⟨n, w', hrun⟩ := r.groundRows_of_accepts (s := s) hw h.rows
  refine ⟨n, w', ?_⟩
  rw [ground]
  refine Grounding.runOn_bind_eq_ok_iff.mpr ⟨r.groundingQuery.answers s, w,
    Grounding.runOn_query_eq_ok_iff.mpr ⟨Query.evaluate_eq_ok_iff.mpr ⟨h.query, rfl⟩, rfl⟩, ?_⟩
  rw [groundResults, assignments_answers]
  exact hrun

end LogicalRule

namespace Rule

/-- A logical rule that can be grounded over a store. -/
def Groundable (s : Store) : Rule → Prop
  | logical r => r.Groundable s
  | arithmetic _ => False

/-- The outlines of a logical rule's ground clauses over a store. -/
def outlinesOver (s : Store) : Rule → List RuleOutline
  | logical r => r.outlinesOver s
  | arithmetic _ => []

variable {s : Store} {w w' : Workspace} {rules : List Rule}

/-- Grounding logical rules that succeeds produces the outlines of all of them. -/
theorem emits_of_groundAll (hw : w.manager.Computes)
    (hlogical : ∀ rule ∈ rules, ∃ r, rule = .logical r) {n : Nat}
    (h : (groundAll s rules).runOn w = (.ok n, w')) :
    (∀ rule ∈ rules, rule.Groundable s) ∧ w.Emits w' (rules.flatMap (outlinesOver s)) := by
  induction rules generalizing w n with
  | nil =>
    obtain ⟨-, rfl⟩ := Grounding.runOn_pure_eq_ok_iff.mp h
    exact ⟨fun rule hrule => absurd hrule List.not_mem_nil, .refl hw⟩
  | cons rule rules ih =>
    obtain ⟨r, rfl⟩ := hlogical rule List.mem_cons_self
    rw [groundAll] at h
    obtain ⟨k, w₁, hfirst, h⟩ := Grounding.runOn_bind_eq_ok_iff.mp h
    obtain ⟨l, w₂, hrest, h⟩ := Grounding.runOn_bind_eq_ok_iff.mp h
    obtain ⟨-, rfl⟩ := Grounding.runOn_pure_eq_ok_iff.mp h
    obtain ⟨hgroundable, hemits⟩ := r.emits_of_ground hw hfirst
    obtain ⟨hrules, hlater⟩ :=
      ih hemits.1 (fun rule' h' => hlogical rule' (List.mem_cons_of_mem _ h')) hrest
    refine ⟨fun rule' hrule' => ?_, hemits.trans hlater⟩
    rcases List.mem_cons.mp hrule' with rfl | hrule'
    · exact hgroundable
    · exact hrules rule' hrule'

/-- Logical rules that can be grounded are grounded. -/
theorem groundAll_of_groundable (hw : w.manager.Computes)
    (h : ∀ rule ∈ rules, rule.Groundable s) :
    ∃ n w', (groundAll s rules).runOn w = (.ok n, w') := by
  induction rules generalizing w with
  | nil => exact ⟨0, w, rfl⟩
  | cons rule rules ih =>
    have hrule := h rule List.mem_cons_self
    cases rule with
    | arithmetic r => exact hrule.elim
    | logical r =>
      obtain ⟨k, w₁, hfirst⟩ := r.ground_of_groundable hw hrule
      obtain ⟨l, w₂, hrest⟩ := ih (r.emits_of_ground hw hfirst).2.1
        fun rule' h' => h rule' (List.mem_cons_of_mem _ h')
      refine ⟨k + l, w₂, ?_⟩
      rw [groundAll]
      exact Grounding.runOn_bind_eq_ok_iff.mpr ⟨k, w₁, hfirst,
        Grounding.runOn_bind_eq_ok_iff.mpr ⟨l, w₂, hrest, rfl⟩⟩

end Rule

end RuleGrounding
