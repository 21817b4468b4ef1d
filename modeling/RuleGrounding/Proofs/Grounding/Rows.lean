import RuleGrounding.Proofs.Grounding.Constraints
import RuleGrounding.Proofs.Grounding.Deferring
import RuleGrounding.Proofs.Grounding.Extensions

/-!
# Rows of arithmetic rules

A row of an arithmetic rule is grounded in stages: its numbers are settled, then atoms are
resolved, and only when nothing can fail any more are ground constraints produced. So a row
contributes all of its ground constraints or none, also where grounding stops.
-/

namespace RuleGrounding

namespace Grounding

variable {α : Type} {s : Store}

/-- A step that produces no ground rules leaves those that there are. -/
theorem Extending.rules_eq {x : Grounding α} (h : Extending s (fun _ => False) x) (w : Workspace) :
    (x.runOn w).2.rules = w.rules := by
  obtain ⟨produced, hrules, hnone⟩ := (h w).rules
  rw [hrules, List.eq_nil_iff_forall_not_mem.mpr hnone, List.append_nil]

end Grounding

open Grounding

/-- A ground constraint whose numbers may be computed with. -/
structure GroundConstraint.Regular (g : GroundConstraint) : Prop where
  /-- There is one coefficient for each atom. -/
  balanced : g.coefficients.length = g.atoms.length
  /-- The coefficients are finite. -/
  coefficients : ∀ x ∈ g.coefficients, x.isFinite = true
  /-- The right side is finite. -/
  constant : g.constant.isFinite = true
  /-- The weight is finite, if there is one. -/
  weight : ∀ x, g.weight = some x → x.isFinite = true

/-- A weight that is not refused is finite. -/
theorem isFinite_of_weightFault?_eq_none {weight : Option Float} (h : weightFault? weight = none)
    {x : Float} (hx : weight = some x) : x.isFinite = true := by
  rw [hx] at h
  by_contra hinfinite
  rw [weightFault?, if_neg hinfinite] at h
  cases h

/-- The term has tuples, and its coefficient is not finite. -/
def ExpressionTerm.IsInfinite (t : ExpressionTerm) (θ : Assignment) (sets : SelectionSets) : Prop :=
  ∃ domains, Yields (ArithmeticRule.domains θ sets t.atom.args) domains ∧
    domains.any List.isEmpty = false ∧ (t.coefficient.value sets.size).isFinite = false

namespace ArithmeticRule

variable {r : ArithmeticRule} {s : Store} {θ : Assignment} {sets : SelectionSets}
  {w w₁ w' : Workspace}

/-- Some number of the row is not finite: the right side, or the coefficient of a term with
tuples. -/
def IsInfinite (r : ArithmeticRule) (θ : Assignment) (sets : SelectionSets) : Prop :=
  (r.expression.constant.value sets.size).isFinite = false ∨
    ∃ t ∈ r.expression.terms, t.IsInfinite θ sets

/-- The ground constraints of a row: for an equality one in each direction, the one with at least
first, and otherwise a single one. They differ in the direction only. -/
def group (r : ArithmeticRule) (g : GroundConstraint) : List GroundRule :=
  match r.expression.comparator with
  | .equal => [.arithmetic { g with comparator := .greaterOrEqual },
      .arithmetic { g with comparator := .lessOrEqual }]
  | .greaterOrEqual => [.arithmetic { g with comparator := .greaterOrEqual }]
  | .lessOrEqual => [.arithmetic { g with comparator := .lessOrEqual }]

/-- What grounding one row does to a workspace. -/
inductive RowOutcome (r : ArithmeticRule) (s : Store) (θ : Assignment) (w : Workspace) :
    Except GroundingFault (List GroundRule) → Workspace → Prop where
  /-- A number of the row is not finite, and nothing is done. -/
  | skipped {sets : SelectionSets}
    (hsets : Yields (r.selectionSets s θ r.expression.summationVariables) sets)
    (h : r.IsInfinite θ sets) : RowOutcome r s θ w (.ok []) w
  /-- All numbers are finite, atoms are resolved, and all ground constraints are produced. -/
  | grounded {sets : SelectionSets} {m : Manager} {g : GroundConstraint}
    (hsets : Yields (r.selectionSets s θ r.expression.summationVariables) sets)
    (h : ¬ r.IsInfinite θ sets) (hm : w.manager.Extends s m) (hrule : g.rule = r.name)
    (hweight : g.weight = r.weight) (hg : g.Regular) :
    RowOutcome r s θ w (.ok (r.group g)) ⟨m, w.rules ++ r.group g⟩
  /-- Something fails, after some atoms have been resolved perhaps, and none is produced. -/
  | failed (fault : GroundingFault) {m : Manager} (hm : w.manager.Extends s m) :
    RowOutcome r s θ w (.error fault) ⟨m, w.rules⟩

/-- What grounding rows one after the other does: each of them in turn has its outcome, up to the
first that fails. -/
inductive RowOutcomes (r : ArithmeticRule) (s : Store) : List Assignment → Workspace →
    List (List GroundRule) → Option GroundingFault → Workspace → Prop where
  /-- No row is left. -/
  | done (w : Workspace) : RowOutcomes r s [] w [] none w
  /-- A row is skipped or grounded, and the others follow. -/
  | next {θ : Assignment} {rows : List Assignment} {w w₁ w' : Workspace} {group : List GroundRule}
    {groups : List (List GroundRule)} {fault? : Option GroundingFault}
    (hrow : r.RowOutcome s θ w (.ok group) w₁) (hrest : RowOutcomes r s rows w₁ groups fault? w') :
    RowOutcomes r s (θ :: rows) w (group :: groups) fault? w'
  /-- A row fails, and the others are left out. -/
  | stopped {θ : Assignment} {rows : List Assignment} {w w' : Workspace} {fault : GroundingFault}
    (hrow : r.RowOutcome s θ w (.error fault) w') :
    RowOutcomes r s (θ :: rows) w [] (some fault) w'

section Reading

theorem still_selectAll (s : Store) (θ : Assignment) (v : SummationVariable) (set : List Constant)
    (cs : NormalForm) : Still (selectAll s θ v set cs) := by
  induction cs generalizing set with
  | nil => exact still_pure set
  | cons c cs ih => exact (still_query s _).bind fun _ => ih _

theorem still_fillSets (r : ArithmeticRule) (s : Store) (θ : Assignment) (sets : SelectionSets)
    (vs : List SummationVariable) : Still (r.fillSets s θ sets vs) := by
  induction vs generalizing sets with
  | nil => exact still_pure sets
  | cons v vs ih => exact (still_selectAll s θ v _ _).bind fun _ => ih _

theorem still_domains (θ : Assignment) (sets : SelectionSets) (args : List SummationTerm) :
    Still (domains θ sets args) := by
  induction args with
  | nil => exact still_pure []
  | cons a args ih =>
    have hrest : ∀ d : List Constant, Still (do
        let rest ← domains θ sets args
        pure (d :: rest)) := fun d => ih.bind fun _ => still_pure _
    rcases a with (v | c) | v
    · rw [domains]
      split
      · exact still_throw _
      · exact hrest _
    · exact hrest _
    · exact hrest _

variable {t : ExpressionTerm} {ds : List (List Constant)}

/-- Once the domains of a term are known, it is clear whether it has tuples. -/
theorem isInfinite_iff (hds : Yields (domains θ sets t.atom.args) ds) :
    t.IsInfinite θ sets ↔
      ds.any List.isEmpty = false ∧ (t.coefficient.value sets.size).isFinite = false :=
  ⟨fun ⟨_, hds', h⟩ => hds.unique hds' ▸ h, fun h => ⟨ds, hds, h⟩⟩

/-- A term without tuples is left out when numbers are settled, whatever its coefficient. -/
theorem runOn_settle_of_isEmpty (ts : List ExpressionTerm)
    (hds : Yields (domains θ sets t.atom.args) ds)
    (hempty : ds.any List.isEmpty = true) (w : Workspace) :
    (settle θ sets (t :: ts)).runOn w = (settle θ sets ts).runOn w := by
  rw [settle, runOn_bind, hds w]
  dsimp only
  rw [if_pos hempty]

/-- A term with tuples and a finite coefficient is settled, and the others follow. -/
theorem runOn_settle_of_isFinite (ts : List ExpressionTerm)
    (hds : Yields (domains θ sets t.atom.args) ds)
    (hempty : ds.any List.isEmpty = false)
    (hfinite : (t.coefficient.value sets.size).isFinite = true) (w : Workspace) :
    (settle θ sets (t :: ts)).runOn w = Grounding.runOn (do
      let rest ← settle θ sets ts
      pure (rest.map (⟨t.atom.predicate, t.coefficient.value sets.size, ds⟩ :: ·))) w := by
  rw [settle, runOn_bind, hds w]
  dsimp only
  rw [if_neg (Bool.eq_false_iff.mp hempty), if_pos hfinite]

/-- Any other term makes settling give up. -/
theorem yields_settle_of_not_isFinite (ts : List ExpressionTerm)
    (hds : Yields (domains θ sets t.atom.args) ds)
    (hempty : ds.any List.isEmpty = false)
    (hfinite : (t.coefficient.value sets.size).isFinite = false) :
    Yields (settle θ sets (t :: ts)) none := by
  intro w
  rw [settle, runOn_bind, hds w]
  dsimp only
  rw [if_neg (Bool.eq_false_iff.mp hempty), if_neg (Bool.eq_false_iff.mp hfinite)]
  rfl

/-- Settling the numbers of the terms changes nothing. It fails, or it gives up because of a number
that is not finite, or there is none and all coefficients are settled. -/
theorem settle_cases (θ : Assignment) (sets : SelectionSets) (ts : List ExpressionTerm) :
    (∃ fault, Fails (settle θ sets ts) fault) ∨
      (Yields (settle θ sets ts) none ∧ ∃ t ∈ ts, t.IsInfinite θ sets) ∨
      ∃ es, Yields (settle θ sets ts) (some es) ∧ (∀ e ∈ es, e.coefficient.isFinite = true) ∧
        ∀ t ∈ ts, ¬ t.IsInfinite θ sets := by
  induction ts with
  | nil => exact .inr (.inr ⟨[], yields_pure _, fun _ h => absurd h List.not_mem_nil,
      fun _ h => absurd h List.not_mem_nil⟩)
  | cons t ts ih =>
    rcases still_domains θ sets t.atom.args with ⟨fault, hfault⟩ | ⟨ds, hds⟩
    · rw [settle]
      exact .inl ⟨fault, hfault.bind _⟩
    have hterm := isInfinite_iff hds
    cases hempty : ds.any List.isEmpty with
    | true =>
      have hrun := runOn_settle_of_isEmpty ts hds hempty
      rw [hempty] at hterm
      rcases ih with ⟨fault, hfault⟩ | ⟨hnone, u, hu, hinfinite⟩ | ⟨es, hes, hfinite, hrest⟩
      · exact .inl ⟨fault, fun w => (hrun w).trans (hfault w)⟩
      · exact .inr (.inl ⟨fun w => (hrun w).trans (hnone w), u, List.mem_cons_of_mem t hu,
          hinfinite⟩)
      · exact .inr (.inr ⟨es, fun w => (hrun w).trans (hes w), hfinite,
          List.forall_mem_cons.mpr ⟨fun h => absurd (hterm.mp h).1 (by decide), hrest⟩⟩)
    | false =>
      cases hfinite : (t.coefficient.value sets.size).isFinite with
      | false =>
        exact .inr (.inl ⟨yields_settle_of_not_isFinite ts hds hempty hfinite, t,
          List.mem_cons_self, hterm.mpr ⟨hempty, hfinite⟩⟩)
      | true =>
        have hrun := runOn_settle_of_isFinite ts hds hempty hfinite
        rw [hfinite] at hterm
        rcases ih with ⟨fault, hfault⟩ | ⟨hnone, u, hu, hinfinite⟩ | ⟨es, hes, hall, hrest⟩
        · exact .inl ⟨fault, fun w => (hrun w).trans (hfault.bind _ w)⟩
        · refine .inr (.inl ⟨fun w => ?_, u, List.mem_cons_of_mem t hu, hinfinite⟩)
          rw [hrun, runOn_bind, hnone w]
          rfl
        · refine .inr (.inr ⟨⟨t.atom.predicate, t.coefficient.value sets.size, ds⟩ :: es,
            fun w => ?_, List.forall_mem_cons.mpr ⟨hfinite, hall⟩,
            List.forall_mem_cons.mpr ⟨fun h => absurd (hterm.mp h).2 (by decide), hrest⟩⟩)
          rw [hrun, runOn_bind, hes w]
          rfl

end Reading

section Producing

/-- The coefficients of the entries are those of the terms that are expanded. -/
theorem exists_coefficient_of_expandAll {es : List Expansion} {entries : List (Float × Handle)}
    (h : (expandAll s es).runOn w = (.ok entries, w')) {x : Float × Handle} (hx : x ∈ entries) :
    ∃ e ∈ es, e.coefficient = x.1 := by
  induction es generalizing w w' entries with
  | nil =>
    obtain ⟨rfl, -⟩ := runOn_pure_eq_ok_iff.mp h
    cases hx
  | cons e es ih =>
    rw [expandAll] at h
    obtain ⟨hs, _, -, h⟩ := runOn_bind_eq_ok_iff.mp h
    obtain ⟨rest, _, hrest, h⟩ := runOn_bind_eq_ok_iff.mp h
    obtain ⟨rfl, -⟩ := runOn_pure_eq_ok_iff.mp h
    rcases List.mem_append.mp hx with hfirst | hlater
    · obtain ⟨a, -, rfl⟩ := List.mem_map.mp hfirst
      exact ⟨e, List.mem_cons_self, rfl⟩
    · obtain ⟨e', he', hcoefficient⟩ := ih hrest hlater
      exact ⟨e', List.mem_cons_of_mem e he', hcoefficient⟩

/-- The ground constraint over some entries, but for its direction. -/
def constraint (r : ArithmeticRule) (entries : List (Float × Handle)) (constant : Float) :
    GroundConstraint :=
  ⟨r.name, r.weight, entries.map Prod.fst, entries.map Prod.snd, .lessOrEqual, constant⟩

theorem regular_constraint (hweight : ∀ x, r.weight = some x → x.isFinite = true)
    {entries : List (Float × Handle)} {constant : Float} (hconstant : constant.isFinite = true)
    (hfinite : ∀ e ∈ entries, e.1.isFinite = true) : (r.constraint entries constant).Regular where
  balanced := (List.length_map ..).trans (List.length_map ..).symm
  coefficients := List.forall_mem_map.mpr hfinite
  constant := hconstant
  weight := hweight

/-- Producing a ground constraint for each inequality produces the group of the row. -/
theorem runOn_emitInequalities (r : ArithmeticRule) (entries : List (Float × Handle))
    (constant : Float) (w : Workspace) :
    (r.expression.comparator.inequalities.forM fun c =>
        emit (r.constraintOf entries constant c)).runOn w =
      (.ok (), { w with rules := w.rules ++ r.group (r.constraint entries constant) }) := by
  rw [runOn_emitAll, group]
  cases r.expression.comparator <;> rfl

/-- As many ground constraints are counted as the group has. -/
theorem length_group (r : ArithmeticRule) (g : GroundConstraint) :
    (r.group g).length = r.expression.comparator.inequalities.length := by
  rw [group]
  cases r.expression.comparator <;> rfl

/-- A row whose numbers are settled and finite is grounded, or an atom is refused. -/
theorem rowOutcome_expandAll (hweight : ∀ x, r.weight = some x → x.isFinite = true)
    (hsets : Yields (r.selectionSets s θ r.expression.summationVariables) sets)
    (hinfinite : ¬ r.IsInfinite θ sets) {es : List Expansion}
    (hfinite : ∀ e ∈ es, e.coefficient.isFinite = true) {constant : Float}
    (hconstant : constant.isFinite = true) (w : Workspace) :
    ∃ outcome w', r.RowOutcome s θ w outcome w' ∧ Grounding.runOn (do
      let entries ← expandAll s es
      r.expression.comparator.inequalities.forM fun c => emit (r.constraintOf entries constant c)
      pure r.expression.comparator.inequalities.length) w = (outcome.map List.length, w') := by
  have hextends : Extending s (fun _ => False) (expandAll s es) :=
    (parallel_expandAll s s es).extending
  have hmanager := (hextends w).manager
  have hrules := hextends.rules_eq w
  rw [runOn_bind]
  cases hexpand : (expandAll s es).runOn w with
  | mk result w₁ =>
    rw [hexpand] at hmanager hrules
    obtain ⟨m, rules⟩ := w₁
    obtain rfl : rules = w.rules := hrules
    cases result with
    | error fault => exact ⟨.error fault, _, .failed fault hmanager, rfl⟩
    | ok entries =>
      have hregular : (r.constraint entries constant).Regular := by
        refine regular_constraint hweight hconstant fun entry hentry => ?_
        obtain ⟨e, he, hcoefficient⟩ := exists_coefficient_of_expandAll hexpand hentry
        exact hcoefficient ▸ hfinite e he
      refine ⟨_, _, .grounded hsets hinfinite hmanager rfl rfl hregular, ?_⟩
      dsimp only
      rw [runOn_bind, runOn_emitInequalities, Except.map, length_group]
      rfl

/-- A row has one of the three outcomes. -/
theorem rowOutcome_groundRow (hweight : ∀ x, r.weight = some x → x.isFinite = true)
    (hsets : Yields (r.selectionSets s θ r.expression.summationVariables) sets) (w : Workspace) :
    ∃ outcome w', r.RowOutcome s θ w outcome w' ∧
      (r.groundRow s θ sets).runOn w = (outcome.map List.length, w') := by
  rw [groundRow]
  rcases settle_cases θ sets r.expression.terms with ⟨fault, hfault⟩ | ⟨hnone, hinfinite⟩ |
    ⟨es, hes, hfinite, hterms⟩
  · exact ⟨.error fault, w, .failed fault (.refl s _), hfault.bind _ w⟩
  · refine ⟨.ok [], w, .skipped hsets (.inr hinfinite), ?_⟩
    rw [runOn_bind, hnone w]
    rfl
  · rw [runOn_bind, hes w]
    dsimp only
    by_cases hconstant : (r.expression.constant.value sets.size).isFinite = true
    · rw [if_pos hconstant]
      refine rowOutcome_expandAll hweight hsets ?_ hfinite hconstant w
      rintro (h | ⟨t, ht, h⟩)
      · rw [hconstant] at h
        cases h
      · exact hterms t ht h
    · rw [if_neg hconstant]
      exact ⟨.ok [], w, .skipped hsets (.inl (Bool.eq_false_iff.mpr hconstant)), rfl⟩

/-- What is counted for some groups of ground constraints, unless a row has failed. -/
def counted (groups : List (List GroundRule)) : Option GroundingFault → Except GroundingFault Nat
  | none => .ok groups.flatten.length
  | some fault => .error fault

/-- Rows are grounded one after the other, up to the first that fails. -/
theorem rowOutcomes_groundRows (hweight : ∀ x, r.weight = some x → x.isFinite = true)
    (before : SelectionSets) (rows : List Assignment) (w : Workspace) :
    ∃ groups fault? w', r.RowOutcomes s rows w groups fault? w' ∧
      (r.groundRows s before rows).runOn w = (counted groups fault?, w') := by
  induction rows generalizing before w with
  | nil => exact ⟨[], none, w, .done w, rfl⟩
  | cons θ rows ih =>
    rw [groundRows, recomputeSets_eq]
    have hstill : Still (r.selectionSets s θ r.expression.summationVariables) :=
      r.still_fillSets s θ ∅ _
    rcases hstill with ⟨fault, hfault⟩ | ⟨sets, hsets⟩
    · exact ⟨[], some fault, w, .stopped (.failed fault (.refl s _)), hfault.bind _ w⟩
    · rw [runOn_bind, hsets w]
      dsimp only
      obtain ⟨outcome, w₁, hrow, hrun⟩ := rowOutcome_groundRow hweight hsets w
      rw [runOn_bind, hrun]
      cases outcome with
      | error fault => exact ⟨[], some fault, w₁, .stopped hrow, rfl⟩
      | ok group =>
        obtain ⟨groups, fault?, w', hrest, hrun'⟩ := ih sets w₁
        refine ⟨group :: groups, fault?, w', .next hrow hrest, ?_⟩
        change Grounding.runOn (_ >>= _) w₁ = _
        rw [runOn_bind, hrun']
        cases fault? with
        | some fault => rfl
        | none =>
          rw [counted, counted, List.flatten_cons, List.length_append]
          rfl

end Producing

section Consequences

variable {rows : List Assignment} {groups : List (List GroundRule)}
  {fault? : Option GroundingFault}

/-- A row contributes nothing, or all of its ground constraints. -/
theorem RowOutcome.eq_nil_or_group {group : List GroundRule}
    (h : r.RowOutcome s θ w (.ok group) w') :
    group = [] ∨ ∃ g : GroundConstraint, g.rule = r.name ∧ g.weight = r.weight ∧ g.Regular ∧
      group = r.group g := by
  cases h with
  | skipped hsets h => exact .inl rfl
  | grounded hsets h hm hrule hweight hg => exact .inr ⟨_, hrule, hweight, hg, rfl⟩

/-- What a row contributes stands behind what there was. -/
theorem RowOutcome.rules_eq {group : List GroundRule} (h : r.RowOutcome s θ w (.ok group) w') :
    w'.rules = w.rules ++ group := by
  cases h with
  | skipped hsets h => exact (List.append_nil _).symm
  | grounded hsets h hm hrule hweight hg => rfl

/-- So do several rows, and what they contribute stands in their order behind what there was. -/
theorem RowOutcomes.rules_eq (h : r.RowOutcomes s rows w groups fault? w') :
    w'.rules = w.rules ++ groups.flatten ∧ ∀ group ∈ groups, group = [] ∨
      ∃ g : GroundConstraint, g.rule = r.name ∧ g.weight = r.weight ∧ g.Regular ∧
        group = r.group g := by
  induction h with
  | done w => exact ⟨(List.append_nil _).symm, fun _ h => absurd h List.not_mem_nil⟩
  | next hrow hrest ih =>
    obtain ⟨hrules, hgroups⟩ := ih
    refine ⟨?_, List.forall_mem_cons.mpr ⟨hrow.eq_nil_or_group, hgroups⟩⟩
    rw [hrules, hrow.rules_eq, List.append_assoc, List.flatten_cons]
  | stopped hrow =>
    cases hrow
    exact ⟨(List.append_nil _).symm, fun _ h => absurd h List.not_mem_nil⟩

/-- The weight of an accepted rule is finite, if there is one. -/
theorem isFinite_weight_of_make {name : String} {e : Expression}
    {formulas : FiniteMap SummationVariable Formula} {weight : Option Float}
    (hr : make name e formulas weight = .ok r) {x : Float} (hx : r.weight = some x) :
    x.isFinite = true := by
  obtain ⟨rfl, -⟩ := eq_of_make hr
  rw [make] at hr
  split at hr
  · cases hr
  · exact isFinite_of_weightFault?_eq_none ‹_› hx

/-- Grounding an accepted rule in any session fails at its query and does nothing, or it grounds
the rows of the query one after the other, up to the first that fails. Each row before that one
contributes all of its ground constraints, or it is skipped and nothing is changed. -/
theorem rows_are_grounded_whole_or_not_at_all {name : String} {e : Expression}
    {formulas : FiniteMap SummationVariable Formula} {weight : Option Float}
    (hr : make name e formulas weight = .ok r) {x y : Session}
    {result : Except GroundingFault Nat} (hrun : x.run r.ground = (result, y)) :
    (∃ fault, r.groundingQuery.evaluate x.store = .error fault ∧ result = .error (.query fault) ∧
      y = x) ∨
    ∃ results groups fault?, r.groundingQuery.evaluate x.store = .ok results ∧
      r.RowOutcomes x.store results.assignments x.work groups fault? y.work ∧
      result = counted groups fault? ∧ y = { x with work := y.work } ∧
      y.work.rules = x.work.rules ++ groups.flatten ∧ ∀ group ∈ groups, group = [] ∨
        ∃ g : GroundConstraint, g.rule = r.name ∧ g.weight = r.weight ∧ g.Regular ∧
          group = r.group g := by
  cases hground : (r.ground x.store).runOn x.work with
  | mk outcome w' =>
    rw [Session.run, hground] at hrun
    obtain ⟨rfl, rfl⟩ := Prod.mk.inj hrun
    cases heval : r.groundingQuery.evaluate x.store with
    | error fault =>
      rw [ground, query, heval] at hground
      obtain ⟨rfl, rfl⟩ := Prod.mk.inj hground
      exact .inl ⟨fault, rfl, rfl, rfl⟩
    | ok results =>
      rw [ground, query, heval] at hground
      obtain ⟨groups, fault?, w', houtcomes, hrows⟩ := rowOutcomes_groundRows
        (fun _ => isFinite_weight_of_make hr) ∅ results.assignments x.work
      obtain ⟨rfl, rfl⟩ := Prod.mk.inj (hrows.symm.trans hground)
      exact .inr ⟨results, groups, fault?, rfl, houtcomes, rfl, rfl, houtcomes.rules_eq⟩

/-- The row of the tasks of a person is grounded, and both inequalities are counted. -/
theorem rows_shareRule :
    make "share" shareExpression shareFormulas none = .ok shareRule ∧
      ((Session.start taskStore .strict).run shareRule.ground).1 = .ok 2 ∧
      ∃ results groups, shareRule.groundingQuery.evaluate taskStore = .ok results ∧
        shareRule.RowOutcomes taskStore results.assignments ⟨.fresh .strict, []⟩ groups none
          ((Session.start taskStore .strict).run shareRule.ground).2.work ∧
        2 = groups.flatten.length := by
  have hmake : make "share" shareExpression shareFormulas none = .ok shareRule := rfl
  refine ⟨hmake, run_shareRule, ?_⟩
  obtain ⟨fault, -, hresult, -⟩ | ⟨results, groups, fault?, heval, houtcomes, hresult, -⟩ :=
    rows_are_grounded_whole_or_not_at_all hmake (Prod.ext run_shareRule rfl)
  · cases hresult
  · cases fault? with
    | some fault => cases hresult
    | none => exact ⟨results, groups, heval, houtcomes, Except.ok.inj hresult⟩

end Consequences

end ArithmeticRule

end RuleGrounding
