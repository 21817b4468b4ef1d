import RuleGrounding.Proofs.Grounding.Expansion
import RuleGrounding.Proofs.Session.Histories

/-!
# Ground constraints

What an arithmetic rule asks for, said without enumeration: for each distinct row
there is a group of ground constraints, none if a number that counts is not finite,
and otherwise one for each inequality of the comparison, over the instances of all
terms. Grounding appends exactly these groups.
-/

namespace RuleGrounding

namespace ArithmeticRule

/-- The constants of an instance of an atom for a row: the ordinary variables are those of the row,
and each summation variable has a selected constant. -/
def IsInstance (r : ArithmeticRule) (s : Store) (row : Row) (a : TermAtom)
    (args : List Constant) : Prop :=
  ∃ (σ : Valuation) (choice : SummationVariable → Constant), r.expression.vars.map σ = row ∧
    (∀ v ∈ a.summationVariables, r.Selects s row v (choice v)) ∧
    args = a.args.map (SummationTerm.eval σ choice)

/-- The entries of a term in a constraint: each instance once, with the value of the coefficient. -/
def Expands (r : ArithmeticRule) (s : Store) (m : Manager) (row : Row) (t : ExpressionTerm)
    (entries : List (Float × Handle)) : Prop :=
  ∃ tuples : List (List Constant), tuples.Nodup ∧
    (∀ args, args ∈ tuples ↔ r.IsInstance s row t.atom args) ∧
    List.Forall₂ (fun args entry => entry.1 = t.coefficient.value (r.selectionSize s row) ∧
      m.GivesInstance t.atom.predicate args entry.2) tuples entries

/-- A row is skipped if its right side is not finite, or the coefficient of a term that has
instances. -/
def Skips (r : ArithmeticRule) (s : Store) (row : Row) : Prop :=
  (r.expression.constant.value (r.selectionSize s row)).isFinite = false ∨
    ∃ t ∈ r.expression.terms, (∃ args, r.IsInstance s row t.atom args) ∧
      (t.coefficient.value (r.selectionSize s row)).isFinite = false

/-- The ground constraints of a row. -/
structure Grounds (r : ArithmeticRule) (s : Store) (m : Manager) (row : Row)
    (group : List GroundRule) : Prop where
  /-- A row that is skipped has none. -/
  skipped : r.Skips s row → group = []
  /-- Any other row has one for each inequality, all over the same entries. -/
  grounded : ¬ r.Skips s row → ∃ parts,
    List.Forall₂ (r.Expands s m row) r.expression.terms parts ∧
      group = r.expression.comparator.inequalities.map
        (r.constraintOf parts.flatten (r.expression.constant.value (r.selectionSize s row)))

section Later

variable {r : ArithmeticRule} {s : Store} {m m' : Manager} {row : Row}

theorem Expands.later {t : ExpressionTerm} {entries : List (Float × Handle)}
    (h : r.Expands s m row t entries) (hgrows : m.Grows m') : r.Expands s m' row t entries := by
  obtain ⟨tuples, hnodup, hmem, hentries⟩ := h
  exact ⟨tuples, hnodup, hmem, hentries.imp fun _ _ he => ⟨he.1, he.2.later hgrows⟩⟩

theorem Grounds.later {group : List GroundRule} (h : r.Grounds s m row group)
    (hgrows : m.Grows m') : r.Grounds s m' row group := by
  refine ⟨h.skipped, fun hskip => ?_⟩
  obtain ⟨parts, hparts, hgroup⟩ := h.grounded hskip
  exact ⟨parts, hparts.imp fun _ _ ht => ht.later hgrows, hgroup⟩

end Later

section Row

variable {r : ArithmeticRule} {s : Store} {τ : Valuation} {sets : SelectionSets}
  {w w' : Workspace}

/-- For a row and its selection sets, the tuples of a term's domains are its instances. -/
theorem mem_product_iff_isInstance (hsets : sets.Lists r s (r.expression.vars.map τ))
    {t : ExpressionTerm} (ht : t ∈ r.expression.terms)
    (hnodup : (t.atom.args.filterMap SummationTerm.summation?).Nodup) {args : List Constant} :
    args ∈ CrossProduct.product (t.atom.args.map (SummationTerm.domain τ sets)) ↔
      r.IsInstance s (r.expression.vars.map τ) t.atom args := by
  have heval : ∀ σ : Valuation, r.expression.vars.map σ = r.expression.vars.map τ →
      ∀ choice, t.atom.args.map (SummationTerm.eval σ choice) =
        t.atom.args.map (SummationTerm.eval τ choice) := by
    intro σ hσ choice
    refine List.map_congr_left fun a ha => ?_
    rcases a with (v | c) | v
    · have hv : v ∈ r.expression.vars :=
        mem_distinct.mpr (List.mem_flatMap.mpr ⟨t, ht, TermAtom.mem_vars_of_arg ha⟩)
      exact List.map_inj_left.mp hσ v hv
    · rfl
    · rfl
  rw [SelectionSets.mem_product_domains hnodup]
  constructor
  · rintro ⟨choice, hchoice, rfl⟩
    exact ⟨τ, choice, rfl, fun v hv => (hsets.mem_iff v _).mp
      (hchoice v (TermAtom.mem_summationVariables.mp hv)), rfl⟩
  · rintro ⟨σ, choice, hσ, hchoice, rfl⟩
    exact ⟨choice, fun v hv => (hsets.mem_iff v _).mpr
      (hchoice v (TermAtom.mem_summationVariables.mpr hv)), heval σ hσ choice⟩

/-- The entries of a term in which no summation variable stands twice are those of its instances. -/
theorem expands_of_enumerates (hsets : sets.Lists r s (r.expression.vars.map τ))
    {t : ExpressionTerm} (ht : t ∈ r.expression.terms)
    (hnodup : (t.atom.args.filterMap SummationTerm.summation?).Nodup) {m : Manager}
    {entries : List (Float × Handle)} (h : t.Enumerates τ sets m entries) :
    r.Expands s m (r.expression.vars.map τ) t entries := by
  refine ⟨_, SelectionSets.nodup_product_domains hsets.nodup _,
    fun _ => mem_product_iff_isInstance hsets ht hnodup, ?_⟩
  rwa [← funext hsets.size_eq]

/-- A row is skipped exactly when one of the numbers that grounding checks is not finite. -/
theorem skips_iff (hsets : sets.Lists r s (r.expression.vars.map τ))
    (hnodup : ∀ t ∈ r.expression.terms,
      (t.atom.args.filterMap SummationTerm.summation?).Nodup) :
    r.Skips s (r.expression.vars.map τ) ↔
      (r.expression.constant.value sets.size).isFinite = false ∨
        ((r.expression.terms.filterMap fun t => t.expansion? τ sets).all fun e =>
          e.coefficient.isFinite) = false := by
  have hsize : r.selectionSize s (r.expression.vars.map τ) = sets.size :=
    funext fun v => (hsets.size_eq v).symm
  rw [Skips, hsize]
  refine or_congr_right ?_
  rw [List.all_eq_false]
  constructor
  · rintro ⟨t, ht, ⟨args, hargs⟩, hinfinite⟩
    rw [← mem_product_iff_isInstance hsets ht (hnodup t ht)] at hargs
    refine ⟨⟨t.atom.predicate, t.coefficient.value sets.size,
      t.atom.args.map (SummationTerm.domain τ sets)⟩, List.mem_filterMap.mpr ⟨t, ht, ?_⟩, ?_⟩
    · rw [ExpressionTerm.expansion?, if_neg]
      intro hempty
      obtain ⟨d, hd, hnil⟩ := List.any_eq_true.mp hempty
      rw [CrossProduct.product_eq_nil (List.isEmpty_iff.mp hnil ▸ hd)] at hargs
      cases hargs
    · exact Bool.eq_false_iff.mp hinfinite
  · rintro ⟨e, he, hinfinite⟩
    obtain ⟨t, ht, hexpansion⟩ := List.mem_filterMap.mp he
    rw [ExpressionTerm.expansion?] at hexpansion
    split at hexpansion
    · cases hexpansion
    · rename_i hne
      cases hexpansion
      have hnonempty : [] ∉ t.atom.args.map (SummationTerm.domain τ sets) := fun hnil =>
        hne (List.any_eq_true.mpr ⟨[], hnil, rfl⟩)
      obtain ⟨args, hargs⟩ := CrossProduct.exists_mem_product hnonempty
      exact ⟨t, ht, ⟨args, (mem_product_iff_isInstance hsets ht (hnodup t ht)).mp hargs⟩,
        Bool.eq_false_iff.mpr hinfinite⟩

/-- Several ground rules are produced in order. -/
theorem runOn_emitAll {α : Type} (g : α → GroundRule) (xs : List α) (w : Workspace) :
    (xs.forM fun a => Grounding.emit (g a)).runOn w =
      (.ok (), { w with rules := w.rules ++ xs.map g }) := by
  induction xs generalizing w with
  | nil =>
    rw [List.map_nil, List.append_nil]
    rfl
  | cons a xs ih =>
    change (Grounding.emit (g a) >>= fun _ => xs.forM fun a => Grounding.emit (g a)).runOn w = _
    rw [Grounding.runOn_bind, Grounding.runOn_emit]
    dsimp only
    rw [ih, List.append_assoc]
    rfl

/-- Grounding one row is given up, before anything is resolved, if a number that counts is not
finite. Otherwise it produces one ground constraint for each inequality, over the entries of all
terms. -/
theorem groundRow_cases {vs : List Variable} (hw : w.manager.Sound) {n : Nat}
    (h : (r.groundRow s (ResultList.assign vs (vs.map τ)) sets).runOn w = (.ok n, w')) :
    (((r.expression.constant.value sets.size).isFinite = false ∨
        ((r.expression.terms.filterMap fun t => t.expansion? τ sets).all fun e =>
          e.coefficient.isFinite) = false) ∧ n = 0 ∧ w' = w) ∨
      (r.expression.constant.value sets.size).isFinite = true ∧
        ((r.expression.terms.filterMap fun t => t.expansion? τ sets).all fun e =>
          e.coefficient.isFinite) = true ∧
        w'.manager.Sound ∧ w.manager.Grows w'.manager ∧ ∃ parts,
          List.Forall₂ (fun t part => t.Enumerates τ sets w'.manager part)
            r.expression.terms parts ∧
          w'.rules = w.rules ++ r.expression.comparator.inequalities.map
            (r.constraintOf parts.flatten (r.expression.constant.value sets.size)) ∧
          n = r.expression.comparator.inequalities.length := by
  rw [groundRow] at h
  obtain ⟨settled, _, hsettle, h⟩ := Grounding.runOn_bind_eq_ok_iff.mp h
  obtain ⟨rfl, rfl⟩ := runOn_settle hsettle
  by_cases hfinite : ((r.expression.terms.filterMap fun t => t.expansion? τ sets).all fun e =>
      e.coefficient.isFinite) = true
  · rw [if_pos hfinite] at h
    dsimp only at h
    by_cases hconstant : (r.expression.constant.value sets.size).isFinite = true
    · rw [if_pos hconstant] at h
      obtain ⟨entries, w₁, hexpand, h⟩ := Grounding.runOn_bind_eq_ok_iff.mp h
      obtain ⟨_, w₂, hemit, h⟩ := Grounding.runOn_bind_eq_ok_iff.mp h
      obtain ⟨rfl, rfl⟩ := Grounding.runOn_pure_eq_ok_iff.mp h
      obtain ⟨hresolves, parts, hparts, rfl⟩ := runOn_expandAll hw hexpand
      rw [runOn_emitAll] at hemit
      obtain ⟨-, rfl⟩ := Prod.mk.inj hemit
      refine .inr ⟨hconstant, hfinite, hresolves.sound, hresolves.grows, parts, hparts, ?_, rfl⟩
      rw [hresolves.rules]
    · rw [if_neg hconstant] at h
      obtain ⟨rfl, rfl⟩ := Grounding.runOn_pure_eq_ok_iff.mp h
      exact .inl ⟨.inl (Bool.eq_false_iff.mpr hconstant), rfl, rfl⟩
  · rw [if_neg hfinite] at h
    obtain ⟨rfl, rfl⟩ := Grounding.runOn_pure_eq_ok_iff.mp h
    exact .inl ⟨.inr (Bool.eq_false_iff.mpr hfinite), rfl, rfl⟩

/-- Grounding one row produces the ground constraints of that row. -/
theorem runOn_groundRow (hsets : sets.Lists r s (r.expression.vars.map τ))
    (hnodup : ∀ t ∈ r.expression.terms,
      (t.atom.args.filterMap SummationTerm.summation?).Nodup)
    (hw : w.manager.Sound) {n : Nat}
    (h : (r.groundRow s (ResultList.assign r.expression.vars (r.expression.vars.map τ))
      sets).runOn w = (.ok n, w')) :
    w'.manager.Sound ∧ w.manager.Grows w'.manager ∧ ∃ group,
      r.Grounds s w'.manager (r.expression.vars.map τ) group ∧
        w'.rules = w.rules ++ group ∧ n = group.length := by
  have hskips := skips_iff hsets hnodup
  rcases groundRow_cases hw h with ⟨hskip, rfl, rfl⟩ |
    ⟨hconstant, hfinite, hsound, hgrows, parts, hparts, hrules, rfl⟩
  · rw [← hskips] at hskip
    exact ⟨hw, .refl _, [], ⟨fun _ => rfl, fun hn => absurd hskip hn⟩,
      (List.append_nil _).symm, rfl⟩
  · have hskip : ¬ r.Skips s (r.expression.vars.map τ) := by
      rw [hskips, hconstant, hfinite]
      exact fun h => by rcases h with h | h <;> cases h
    have hexpands : List.Forall₂ (r.Expands s w'.manager (r.expression.vars.map τ))
        r.expression.terms parts := by
      rw [List.forall₂_iff_zip] at hparts ⊢
      refine ⟨hparts.1, fun {t part} hmem => ?_⟩
      have ht := (List.of_mem_zip hmem).1
      exact expands_of_enumerates hsets ht (hnodup t ht) (hparts.2 hmem)
    rw [funext hsets.size_eq] at hrules
    refine ⟨hsound, hgrows, _,
      ⟨fun hs => absurd hs hskip, fun _ => ⟨parts, hexpands, rfl⟩⟩, hrules, ?_⟩
    rw [List.length_map]

end Row

variable {r : ArithmeticRule} {s : Store}

/-- Grounding rows one after the other produces the ground constraints of each of them. -/
theorem runOn_groundRows (ha : r.HasArities)
    (hselects : ∀ v ∈ r.selects.keys, v ∈ r.expression.summationVariables)
    (hnodup : ∀ t ∈ r.expression.terms,
      (t.atom.args.filterMap SummationTerm.summation?).Nodup)
    {before : SelectionSets} {rows : List Row}
    (hrows : ∀ row ∈ rows, ∃ τ : Valuation, row = r.expression.vars.map τ)
    {w w' : Workspace} (hw : w.manager.Sound) {n : Nat}
    (h : (r.groundRows s before (rows.map (ResultList.assign r.expression.vars))).runOn w =
      (.ok n, w')) :
    w.manager.Grows w'.manager ∧ ∃ groups,
      List.Forall₂ (r.Grounds s w'.manager) rows groups ∧
        w'.rules = w.rules ++ groups.flatten ∧ n = groups.flatten.length := by
  induction rows generalizing before w n with
  | nil =>
    obtain ⟨rfl, rfl⟩ := Grounding.runOn_pure_eq_ok_iff.mp h
    exact ⟨.refl _, [], .nil, (List.append_nil _).symm, rfl⟩
  | cons row rows ih =>
    obtain ⟨τ, rfl⟩ := hrows row List.mem_cons_self
    rw [List.map_cons, groundRows, recomputeSets_eq] at h
    obtain ⟨sets, _, hselect, h⟩ := Grounding.runOn_bind_eq_ok_iff.mp h
    obtain ⟨k, w₁, hrow, h⟩ := Grounding.runOn_bind_eq_ok_iff.mp h
    obtain ⟨l, w₂, hrest, h⟩ := Grounding.runOn_bind_eq_ok_iff.mp h
    obtain ⟨rfl, rfl⟩ := Grounding.runOn_pure_eq_ok_iff.mp h
    obtain ⟨rfl, hsets⟩ := runOn_selectionSets ha.selects hselects hselect
    obtain ⟨hsound, hgrows, group, hgroup, hrules, rfl⟩ := runOn_groundRow hsets hnodup hw hrow
    obtain ⟨hlater, groups, hgroups, hrules', rfl⟩ :=
      ih (fun row hrow => hrows row (List.mem_cons_of_mem _ hrow)) hsound hrest
    refine ⟨hgrows.trans hlater, group :: groups, .cons (hgroup.later hlater) hgroups, ?_, ?_⟩
    · rw [hrules', hrules, List.flatten_cons, List.append_assoc]
    · rw [List.flatten_cons, List.length_append]

/-- The literals of the query for the rows are the atoms of the terms. -/
theorem mem_literals_groundingQuery {l : Literal} : l ∈ r.groundingQuery.literals ↔
    ∃ t ∈ r.expression.terms, Literal.positive t.atom.queryAtom = l :=
  mem_distinct.trans List.mem_map

/-- The rows of a rule are the distinct restrictions of the valuations that satisfy its atoms. -/
theorem mem_rows_groundingQuery (ha : r.HasArities) {results : ResultList}
    (h : r.groundingQuery.evaluate s = .ok results) :
    results.vars = r.expression.vars ∧ results.rows.Nodup ∧ ∀ row, row ∈ results.rows ↔
      ∃ σ, r.SatisfiedBy s σ ∧ row = r.expression.vars.map σ := by
  obtain ⟨hnone, rfl⟩ := Query.evaluate_eq_ok_iff.mp h
  have harities : r.groundingQuery.HasArities := by
    intro l hl
    obtain ⟨t, ht, rfl⟩ := mem_literals_groundingQuery.mp hl
    exact ha.terms t ht
  refine ⟨?_, ResultList.nodup_pushAll List.nodup_nil _, fun row => ?_⟩
  · rw [Query.answers, ResultList.vars_pushAll]
    rfl
  · rw [Query.mem_rows_answers_iff harities hnone]
    refine exists_congr fun σ => and_congr_left fun _ => ?_
    rw [Query.satisfiedBy_iff_of_no_target rfl]
    constructor
    · exact fun hσ t ht => hσ.2 _ (mem_literals_groundingQuery.mpr ⟨t, ht, rfl⟩)
    · intro hσ
      refine ⟨Valuation.extends_empty σ, fun l hl => ?_⟩
      obtain ⟨t, ht, rfl⟩ := mem_literals_groundingQuery.mp hl
      exact hσ t ht

/-- In any session, grounding an accepted rule that succeeds appends for each distinct row the
ground constraints that the rule asks for there, and counts them. -/
theorem ground_appends_constraints_of_rows {start : Store} {policy : Policy}
    {actions : List Action} {x y : Session}
    (hx : x = (Session.start start policy).after actions)
    {name : String} {e : Expression} {formulas : FiniteMap SummationVariable Formula}
    {weight : Option Float} (hr : make name e formulas weight = .ok r) (ha : r.HasArities)
    (hnodup : ∀ t ∈ e.terms, (t.atom.args.filterMap SummationTerm.summation?).Nodup)
    {n : Nat} (hrun : x.run r.ground = (.ok n, y)) :
    ∃ (rows : List Row) (groups : List (List GroundRule)), rows.Nodup ∧
      (∀ row, row ∈ rows ↔ ∃ σ, r.SatisfiedBy x.store σ ∧ row = e.vars.map σ) ∧
      List.Forall₂ (r.Grounds x.store y.manager) rows groups ∧
      y.work.rules = x.work.rules ++ groups.flatten ∧ n = groups.flatten.length := by
  obtain ⟨rfl, hselects⟩ := selects_of_make hr
  have hsound : x.manager.Sound := by
    rw [hx]
    exact (Session.keeps_after (Session.keeps_start start policy) actions).sound
  obtain ⟨w, hground, rfl⟩ := Session.run_eq_ok_iff.mp hrun
  rw [ground] at hground
  obtain ⟨results, _, hquery, hground⟩ := Grounding.runOn_bind_eq_ok_iff.mp hground
  obtain ⟨heval, rfl⟩ := Grounding.runOn_query_eq_ok_iff.mp hquery
  obtain ⟨hvars, hdistinct, hmem⟩ := mem_rows_groundingQuery ha heval
  rw [ResultList.assignments, hvars] at hground
  obtain ⟨-, groups, hgroups, hrules, hn⟩ := runOn_groundRows ha hselects hnodup
    (fun row hrow => (hmem row).mp hrow |>.imp fun _ h => h.2) hsound hground
  exact ⟨results.rows, groups, hdistinct, hmem, hgroups, hrules, hn⟩

/-- Who has which task. -/
def taskRelation : Predicate := .standard "Has" [.integer, .integer]

/-- The atom that a person has a task. -/
def taskAtom : Atom := ⟨taskRelation, [.var ⟨"P"⟩, .var ⟨"T"⟩]⟩

/-- One person with two tasks. -/
def taskStore : Store where
  rows := .ofList [
    (⟨taskRelation, [.integer 1, .integer 2], rfl⟩, ⟨1.0, ⟨1⟩⟩),
    (⟨taskRelation, [.integer 1, .integer 3], rfl⟩, ⟨0.5, ⟨1⟩⟩)]
  layout := ⟨[⟨0⟩], ⟨1⟩, ⟨2⟩⟩
  defaultValue := 0.0

/-- The mean over a person's tasks is one. -/
def shareExpression : Expression where
  terms := [⟨.div (.number 1.0) (.cardinality ⟨⟨"T"⟩⟩),
    .sum ⟨taskRelation, [.plain (.var ⟨"P"⟩), .sum ⟨⟨"T"⟩⟩]⟩⟩]
  comparator := .equal
  constant := .number 1.0

/-- The tasks of a person. -/
def shareFormulas : FiniteMap SummationVariable Formula := .ofList [(⟨⟨"T"⟩⟩, .atom taskAtom)]

/-- The rule made of these. -/
def shareRule : ArithmeticRule :=
  ⟨"share", shareExpression, shareFormulas.mapValues fun _ f => f.normalForm, none⟩

private theorem orderedGenerators_task (θ : Assignment) (vs : List Variable)
    (hrows : taskStore.candidates taskAtom θ taskStore.layout.contains =
      [[.integer 1, .integer 2], [.integer 1, .integer 3]]) :
    (((Query.ofLiterals [.positive taskAtom]).pin θ).project vs).orderedGenerators taskStore =
      [(taskAtom, [[.integer 1, .integer 2], [.integer 1, .integer 3]])] := by
  rw [Query.orderedGenerators_of_generators_eq (i := 0) (l := .positive taskAtom) rfl]
  exact congrArg (fun rows => [(_, rows)]) hrows

private theorem query_shareRule :
    Grounding.query taskStore shareRule.groundingQuery =
      pure ⟨[⟨"P"⟩], [[.integer 1]]⟩ := by
  have heval : shareRule.groundingQuery.evaluate taskStore = .ok ⟨[⟨"P"⟩], [[.integer 1]]⟩ := by
    have hrows : taskStore.candidates taskAtom ∅ taskStore.layout.contains =
        [[.integer 1, .integer 2], [.integer 1, .integer 3]] :=
      List.mergeSort_of_pairwise (by decide)
    have hgenerators : shareRule.groundingQuery.orderedGenerators taskStore =
        [(taskAtom, [[.integer 1, .integer 2], [.integer 1, .integer 3]])] :=
      orderedGenerators_task ∅ [⟨"P"⟩] hrows
    rw [Query.evaluate_eq_ok_iff]
    refine ⟨by decide, ?_⟩
    rw [Query.answers, Query.solutions, hgenerators]
    rfl
  rw [Grounding.query, heval]

private theorem query_select :
    Grounding.query taskStore (selectQuery (.ofList [(⟨"P"⟩, .integer 1)]) ⟨⟨"T"⟩⟩
      [.positive taskAtom]) = pure ⟨[⟨"T"⟩], [[.integer 2], [.integer 3]]⟩ := by
  have heval : (selectQuery (.ofList [(⟨"P"⟩, .integer 1)]) ⟨⟨"T"⟩⟩
      [.positive taskAtom]).evaluate taskStore = .ok ⟨[⟨"T"⟩], [[.integer 2], [.integer 3]]⟩ := by
    have hrows : taskStore.candidates taskAtom (.ofList [(⟨"P"⟩, .integer 1)])
        taskStore.layout.contains = [[.integer 1, .integer 2], [.integer 1, .integer 3]] :=
      List.mergeSort_of_pairwise (by decide)
    rw [Query.evaluate_eq_ok_iff]
    refine ⟨by decide, ?_⟩
    rw [Query.answers, Query.solutions, selectQuery, orderedGenerators_task _ _ hrows]
    rfl
  rw [Grounding.query, heval]

/-- Both inequalities of the equality are counted. -/
theorem run_shareRule :
    ((Session.start taskStore .strict).run shareRule.ground).1 = .ok 2 := by
  have hsets : selectionSets shareRule taskStore (.ofList [(⟨"P"⟩, .integer 1)]) [⟨⟨"T"⟩⟩] =
      pure (.ofList [(⟨⟨"T"⟩⟩, [.integer 2, .integer 3])]) := by
    change (Grounding.query taskStore (selectQuery (.ofList [(⟨"P"⟩, .integer 1)]) ⟨⟨"T"⟩⟩
      [.positive taskAtom]) >>= _) >>= _ = _
    rw [query_select]
    rfl
  change ((Grounding.query taskStore shareRule.groundingQuery >>= fun results =>
    shareRule.groundRows taskStore ∅ results.assignments).runOn _).1 = _
  rw [query_shareRule, Grounding.runOn_bind, Grounding.runOn_pure]
  change ((selectionSets shareRule taskStore (.ofList [(⟨"P"⟩, .integer 1)]) [⟨⟨"T"⟩⟩] >>=
    _).runOn _).1 = _
  rw [hsets]
  rfl

/-- The equality over two tasks is grounded to two constraints, as the rule asks. -/
theorem ground_shareRule_rows :
    make "share" shareExpression shareFormulas none = .ok shareRule ∧
      ((Session.start taskStore .strict).run shareRule.ground).1 = .ok 2 ∧
      ∃ (rows : List Row) (groups : List (List GroundRule)), rows.Nodup ∧
        (∀ row, row ∈ rows ↔ ∃ σ, shareRule.SatisfiedBy taskStore σ ∧ row = [σ ⟨"P"⟩]) ∧
        List.Forall₂ (shareRule.Grounds taskStore
          ((Session.start taskStore .strict).run shareRule.ground).2.manager) rows groups ∧
        ((Session.start taskStore .strict).run shareRule.ground).2.work.rules = groups.flatten ∧
        2 = groups.flatten.length := by
  have hmake : make "share" shareExpression shareFormulas none = .ok shareRule := rfl
  have harities : shareRule.HasArities := by
    refine ⟨by decide, fun v conjunctions h => ?_⟩
    have hentry : (v, conjunctions) ∈ [((⟨⟨"T"⟩⟩ : SummationVariable), [[.positive taskAtom]])] :=
      FiniteMap.find?_eq_some_iff.mp h
    obtain ⟨-, rfl⟩ := Prod.mk.inj (List.mem_singleton.mp hentry)
    decide
  have hstart : Session.start taskStore .strict = (Session.start taskStore .strict).after [] := rfl
  exact ⟨hmake, run_shareRule, ground_appends_constraints_of_rows hstart hmake harities
    (by decide) (Prod.ext run_shareRule rfl)⟩

end ArithmeticRule

end RuleGrounding
