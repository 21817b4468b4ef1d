import RuleGrounding.Proofs.Query.Faults

/-!
# Which queries are refused

What is wrong with a query is said by its literals, its pinned variables and its
projection, without regard to a store: the lazy target is looked at first, then the
projection, then the filters in their order. A query with which nothing is wrong is
evaluated on every store, and no variable is looked up in vain there: each solution
binds what is returned, and each filter that runs finds its variables bound.
-/

namespace RuleGrounding

namespace Query

/-- A variable occurs in some literal or is pinned. -/
def Knows (q : Query) (v : Variable) : Prop :=
  (∃ l ∈ q.literals, v ∈ l.atom.vars) ∨ v ∈ q.pinned.keys

/-- A variable is pinned or occurs in a positive standard literal. -/
def Binds (q : Query) (v : Variable) : Prop :=
  v ∈ q.pinned.keys ∨ ∃ l ∈ q.literals, l.generates = true ∧ v ∈ l.atom.vars

/-- A lazy target, if one is set, is the index of a positive standard literal. -/
def TargetGenerates (q : Query) : Prop :=
  ∀ i, q.lazyTarget? = some i → ∃ l, q.literals[i]? = some l ∧ l.generates = true

/-- What is wrong with a query: the first defect in the order in which they are looked for. -/
inductive Refuses (q : Query) : QueryFault → Prop
  /-- The lazy target is no positive standard literal. -/
  | target {i : Nat} (hset : q.lazyTarget? = some i)
      (hno : ¬ ∃ l, q.literals[i]? = some l ∧ l.generates = true) :
      Refuses q (.lazyTarget i q.literals.length)
  /-- The first returned variable that is not known. -/
  | projection {before after : List Variable} {v : Variable} (htarget : q.TargetGenerates)
      (hsplit : q.projection = before ++ v :: after) (hbefore : ∀ u ∈ before, q.Knows u)
      (hv : ¬ q.Knows v) : Refuses q (.unknownProjection v.name)
  /-- The first variable of the first filter that nothing binds. -/
  | filter {earlier later : List Literal} {l : Literal} {before after : List Variable}
      {v : Variable} (htarget : q.TargetGenerates) (hprojection : ∀ u ∈ q.projection, q.Knows u)
      (hsplit : q.literals = earlier ++ l :: later)
      (hearlier : ∀ k ∈ earlier, k.generates = false → ∀ u ∈ k.atom.vars, q.Binds u)
      (hl : l.generates = false) (hvars : l.atom.vars = before ++ v :: after)
      (hbefore : ∀ u ∈ before, q.Binds u) (hv : ¬ q.Binds v) :
      Refuses q (.unboundVariable v.name l.toText)

variable {q : Query} {s : Store}

section Checks

private theorem mem_boundVariables_iff_binds {v : Variable} :
    v ∈ q.boundVariables ↔ q.Binds v :=
  mem_boundVariables

private theorem unknown_iff {v : Variable} :
    (decide (v ∉ q.formulaVariables) && !q.pinned.contains v) = true ↔ ¬ q.Knows v := by
  rw [Knows, not_or, ← mem_formulaVariables, Bool.and_eq_true, decide_eq_true_eq,
    Bool.not_eq_true', Bool.eq_false_iff, ne_eq, FiniteMap.contains_iff]

theorem targetFault?_eq_some_iff {fault : QueryFault} : q.targetFault? = some fault ↔
    ∃ i, q.lazyTarget? = some i ∧ (¬ ∃ l, q.literals[i]? = some l ∧ l.generates = true) ∧
      fault = .lazyTarget i q.literals.length := by
  rw [targetFault?]
  cases q.lazyTarget? with
  | none => simp
  | some i =>
    simp only [Option.some.injEq, exists_eq_left', ← Option.any_eq_true]
    split
    · rename_i h
      simp [h]
    · rename_i h
      simp [h, eq_comm]

theorem targetFault?_eq_none_iff : q.targetFault? = none ↔ q.TargetGenerates := by
  rw [← Option.not_isSome_iff_eq_none, Option.isSome_iff_exists, TargetGenerates]
  simp only [targetFault?_eq_some_iff]
  constructor
  · intro h i hi
    by_contra hno
    exact h ⟨_, i, hi, hno, rfl⟩
  · rintro h ⟨_, i, hi, hno, -⟩
    exact hno (h i hi)

theorem projectionFault?_eq_some_iff {fault : QueryFault} : q.projectionFault? = some fault ↔
    ∃ before v after, q.projection = before ++ v :: after ∧ (∀ u ∈ before, q.Knows u) ∧
      ¬ q.Knows v ∧ fault = .unknownProjection v.name := by
  rw [projectionFault?, Option.map_eq_some_iff]
  simp only [List.find?_eq_some_iff_append, unknown_iff, Bool.not_eq_true', Bool.eq_false_iff,
    ne_eq, not_not]
  constructor
  · rintro ⟨v, ⟨hv, before, after, hsplit, hbefore⟩, rfl⟩
    exact ⟨before, v, after, hsplit, hbefore, hv, rfl⟩
  · rintro ⟨before, v, after, hsplit, hbefore, hv, rfl⟩
    exact ⟨v, ⟨hv, before, after, hsplit, hbefore⟩, rfl⟩

theorem projectionFault?_eq_none_iff :
    q.projectionFault? = none ↔ ∀ v ∈ q.projection, q.Knows v := by
  rw [projectionFault?, Option.map_eq_none_iff, List.find?_eq_none]
  simp only [unknown_iff, not_not]

/-- Looking among some elements of a list is looking in the list, past the others. -/
private theorem findSome?_filter_eq {α β : Type*} (p : α → Bool) (f : α → Option β) (l : List α) :
    (l.filter p).findSome? f = l.findSome? fun a => if p a then f a else none := by
  induction l with
  | nil => rfl
  | cons a l ih =>
    rw [List.filter_cons, List.findSome?_cons]
    split
    · rw [List.findSome?_cons, ih]
    · exact ih

/-- The first variable of a filter that nothing binds. -/
private theorem unbound_eq_some_iff {l : Literal} {fault : QueryFault} :
    ((l.atom.vars.find? fun v => v ∉ q.boundVariables).map fun v =>
        QueryFault.unboundVariable v.name l.toText) = some fault ↔
      ∃ before v after, l.atom.vars = before ++ v :: after ∧ (∀ u ∈ before, q.Binds u) ∧
        ¬ q.Binds v ∧ fault = .unboundVariable v.name l.toText := by
  rw [Option.map_eq_some_iff]
  simp only [List.find?_eq_some_iff_append, decide_eq_true_eq, Bool.not_eq_true',
    decide_eq_false_iff_not, not_not, mem_boundVariables_iff_binds]
  constructor
  · rintro ⟨v, ⟨hv, before, after, hsplit, hbefore⟩, rfl⟩
    exact ⟨before, v, after, hsplit, hbefore, hv, rfl⟩
  · rintro ⟨before, v, after, hsplit, hbefore, hv, rfl⟩
    exact ⟨v, ⟨hv, before, after, hsplit, hbefore⟩, rfl⟩

private theorem unbound_eq_none_iff {l : Literal} :
    ((l.atom.vars.find? fun v => v ∉ q.boundVariables).map fun v =>
        QueryFault.unboundVariable v.name l.toText) = none ↔ ∀ v ∈ l.atom.vars, q.Binds v := by
  rw [Option.map_eq_none_iff, List.find?_eq_none]
  simp only [decide_eq_true_eq, not_not, mem_boundVariables_iff_binds]

theorem filterFault?_eq_some_iff {fault : QueryFault} : q.filterFault? = some fault ↔
    ∃ (earlier : List Literal) (l : Literal) (later : List Literal),
      q.literals = earlier ++ l :: later ∧
      (∀ k ∈ earlier, k.generates = false → ∀ u ∈ k.atom.vars, q.Binds u) ∧
      l.generates = false ∧
      ∃ before v after, l.atom.vars = before ++ v :: after ∧ (∀ u ∈ before, q.Binds u) ∧
        ¬ q.Binds v ∧ fault = .unboundVariable v.name l.toText := by
  rw [filterFault?, filters, findSome?_filter_eq, List.findSome?_eq_some_iff]
  simp only [Bool.not_eq_true', ite_eq_right_iff, unbound_eq_none_iff]
  constructor
  · rintro ⟨earlier, l, later, hsplit, hl, hearlier⟩
    split at hl
    · rename_i hfilter
      exact ⟨earlier, l, later, hsplit, hearlier, hfilter, unbound_eq_some_iff.mp hl⟩
    · cases hl
  · rintro ⟨earlier, l, later, hsplit, hearlier, hfilter, hunbound⟩
    refine ⟨earlier, l, later, hsplit, ?_, hearlier⟩
    rw [if_pos hfilter]
    exact unbound_eq_some_iff.mpr hunbound

/-- The checks of a query find what is wrong with it. -/
theorem fault?_eq_some_iff {fault : QueryFault} : q.fault? = some fault ↔ q.Refuses fault := by
  rw [fault?, Option.orElse_eq_some, Option.orElse_eq_some, targetFault?_eq_some_iff,
    projectionFault?_eq_some_iff, filterFault?_eq_some_iff, targetFault?_eq_none_iff,
    projectionFault?_eq_none_iff]
  constructor
  · rintro (⟨i, hset, hno, rfl⟩ | ⟨htarget, ⟨before, v, after, hsplit, hbefore, hv, rfl⟩ |
      ⟨hprojection, earlier, l, later, hsplit, hearlier, hl, before, v, after, hvars, hbefore, hv,
        rfl⟩⟩)
    · exact .target hset hno
    · exact .projection htarget hsplit hbefore hv
    · exact .filter htarget hprojection hsplit hearlier hl hvars hbefore hv
  · intro h
    cases h with
    | target hset hno => exact .inl ⟨_, hset, hno, rfl⟩
    | projection htarget hsplit hbefore hv =>
      exact .inr ⟨htarget, .inl ⟨_, _, _, hsplit, hbefore, hv, rfl⟩⟩
    | filter htarget hprojection hsplit hearlier hl hvars hbefore hv =>
      exact .inr ⟨htarget, .inr ⟨hprojection, _, _, _, hsplit, hearlier, hl, _, _, _, hvars,
        hbefore, hv, rfl⟩⟩

/-- A query is refused for what is wrong with it, whatever the store contains. -/
theorem evaluate_eq_error_iff {fault : QueryFault} :
    q.evaluate s = .error fault ↔ q.Refuses fault := by
  rw [evaluate, ← fault?_eq_some_iff]
  cases q.fault? with
  | none => simp
  | some found => simp

theorem fault?_eq_none_iff_not_refuses : q.fault? = none ↔ ∀ fault, ¬ q.Refuses fault := by
  simp only [← fault?_eq_some_iff, Option.eq_none_iff_forall_ne_some, ne_eq]

end Checks

end Query

/-- A join runs a filter under an assignment: each generator before it has matched one of its
rows and the filters that run earlier have passed. -/
inductive Store.Runs (s : Store) : List JoinStage → Assignment → Literal → Assignment → Prop
  /-- The first generator matches a row, and its filters run. -/
  | here {stage : JoinStage} {stages : List JoinStage} {θ θ' : Assignment} {row : Row}
      {l : Literal} (hrow : row ∈ stage.rows)
      (hmatch : matchTerms θ stage.atom.args row = some θ') (hl : l ∈ stage.filters) :
      Runs s (stage :: stages) θ l θ'
  /-- The filters of the first generator pass, and the join goes on. -/
  | later {stage : JoinStage} {stages : List JoinStage} {θ θ' θ'' : Assignment} {row : Row}
      {l : Literal} (hrow : row ∈ stage.rows)
      (hmatch : matchTerms θ stage.atom.args row = some θ')
      (hpass : stage.filters.all (s.filterHolds θ') = true) (hrest : Runs s stages θ' l θ'') :
      Runs s (stage :: stages) θ l θ''

/-- A filter that runs in a join whose stages fit together finds its variables bound. -/
theorem Store.Runs.bound {s : Store} {stages : List JoinStage} {θ θ' : Assignment} {l : Literal}
    (h : s.Runs stages θ l θ') {bound : List Variable} (hst : Staged bound stages)
    (hθ : ∀ v ∈ bound, v ∈ θ.keys) : ∀ v ∈ l.atom.vars, v ∈ θ'.keys := by
  induction h generalizing bound with
  | here hrow hmatch hl =>
    obtain ⟨hrows, hfilters, -⟩ := hst
    intro v hv
    rw [mem_keys_matchTerms (hrows _ hrow) hmatch, ← Atom.mem_vars]
    exact (List.mem_append.mp ((hfilters _ hl).2 v hv)).imp (hθ v) id
  | later hrow hmatch _ _ ih =>
    obtain ⟨hrows, -, hrest⟩ := hst
    refine ih hrest fun v hv => ?_
    rw [mem_keys_matchTerms (hrows _ hrow) hmatch, ← Atom.mem_vars]
    exact (List.mem_append.mp hv).imp (hθ v) id

namespace Query

/-- A filter of the query runs under an assignment while the query is evaluated. -/
inductive RunsFilter (q : Query) (s : Store) : Literal → Assignment → Prop
  /-- A filter of pinned variables runs before any generator. -/
  | atOnce {l : Literal} (hl : l ∈ q.filters)
      (hpinned : ∀ v ∈ l.atom.vars, v ∈ q.pinned.keys) : RunsFilter q s l q.pinned
  /-- The others wait for the generators that bind their variables. -/
  | joined {l : Literal} {θ : Assignment}
      (h : s.Runs (schedule q.pinned.keys q.waiting (q.orderedGenerators s)) q.pinned l θ) :
      RunsFilter q s l θ

variable {q : Query} {s : Store}

/-- A filter that runs finds its variables bound, so that it is never passed over in silence. -/
theorem RunsFilter.bound (ha : q.HasArities) {l : Literal} {θ : Assignment}
    (h : q.RunsFilter s l θ) : ∀ v ∈ l.atom.vars, v ∈ θ.keys := by
  cases h with
  | atOnce _ hpinned => exact hpinned
  | joined h => exact h.bound (staged_waiting ha) fun _ hv => hv

/-- Every solution of a query that is not refused binds what is returned. -/
theorem exists_row_of_mem_solutions (ha : q.HasArities) (h : q.fault? = none) {θ : Assignment}
    (hθ : θ ∈ q.solutions s) :
    q.projection.mapM θ.find? = some (q.projection.map (Valuation.ofAssignment θ)) :=
  mapM_find? (Valuation.ofAssignment_extends θ) fun _ hv =>
    mem_keys_of_mem_solutions ha hθ (mem_boundVariables_of_projection h hv)

/-- A query is refused for its first defect, whatever is stored. A query without defect is
evaluated on every store: its rows are what the solutions give to the returned variables, all of
which they bind, and every filter that runs finds its variables bound. -/
theorem refused_for_first_defect_or_evaluated (ha : q.HasArities) :
    (∀ s fault, q.evaluate s = .error fault ↔ q.Refuses fault) ∧
      (∀ s s' fault, q.evaluate s = .error fault ↔ q.evaluate s' = .error fault) ∧
      ∀ s, (∀ fault, ¬ q.Refuses fault) → ∃ r, q.evaluate s = .ok r ∧ r.vars = q.projection ∧
        (∀ θ ∈ q.solutions s, ∃ row ∈ r.rows, q.projection.mapM θ.find? = some row) ∧
        (∀ row ∈ r.rows, ∃ θ ∈ q.solutions s, q.projection.mapM θ.find? = some row) ∧
        ∀ l θ, q.RunsFilter s l θ →
          (∀ v ∈ l.atom.vars, v ∈ θ.keys) ∧ ∃ args, l.atom.groundArgs θ = .ok args := by
  refine ⟨fun _ _ => evaluate_eq_error_iff, ?_, ?_⟩
  · intro s s' fault
    rw [evaluate_eq_error_iff, evaluate_eq_error_iff]
  · intro s hnone
    have hok := fault?_eq_none_iff_not_refuses.mpr hnone
    refine ⟨q.answers s, evaluate_eq_ok_iff.mpr ⟨hok, rfl⟩, ?_, ?_, ?_, ?_⟩
    · rw [answers, ResultList.vars_pushAll, ResultList.empty]
    · intro θ hθ
      have hrow := exists_row_of_mem_solutions ha hok hθ
      exact ⟨_, ResultList.mem_rows_pushAll.mpr (.inr (List.mem_filterMap.mpr ⟨θ, hθ, hrow⟩)),
        hrow⟩
    · intro row hrow
      rcases ResultList.mem_rows_pushAll.mp hrow with hempty | hrow
      · cases hempty
      · exact List.mem_filterMap.mp hrow
    · intro l θ hruns
      have hbound := hruns.bound ha
      exact ⟨hbound, _, Atom.groundArgs_eq_ok (Valuation.ofAssignment_extends θ) hbound⟩

/-- The query about two steps is evaluated on every store, and refused on every store once its
lazy target is the comparison. -/
theorem sampleQuery_is_evaluated_unless_misdirected :
    sampleQuery.HasArities ∧
      (∀ s, ∃ r, sampleQuery.evaluate s = .ok r ∧
        ∀ l θ, sampleQuery.RunsFilter s l θ → ∀ v ∈ l.atom.vars, v ∈ θ.keys) ∧
      ∀ s, (sampleQuery.target 2).evaluate s = .error (.lazyTarget 2 4) := by
  refine ⟨by decide, ?_, ?_⟩
  · intro s
    obtain ⟨-, -, hevaluated⟩ := refused_for_first_defect_or_evaluated (q := sampleQuery)
      (by decide)
    obtain ⟨r, hr, -, -, -, hruns⟩ :=
      hevaluated s (fault?_eq_none_iff_not_refuses.mp (by decide))
    exact ⟨r, hr, fun l θ h => (hruns l θ h).1⟩
  · intro s
    have hdefect : (sampleQuery.target 2).Refuses (.lazyTarget 2 4) := by
      refine .target rfl ?_
      rintro ⟨l, hl, hgenerates⟩
      cases hl
      cases hgenerates
    exact ((refused_for_first_defect_or_evaluated (by decide)).1 s _).mpr hdefect

end Query

end RuleGrounding
