import RuleGrounding.Proofs.Query.Unions
import RuleGrounding.Proofs.Store.Contents
import RuleGrounding.Query.Collector

/-!
# Result lists are sets with a stable order

Whatever is pushed to a result list and merged into it, the rows stay distinct and in the order in
which they came, and the set in which new rows are looked up is the set of the rows. Merging matches
columns by variable, so that it joins the substitutions of two lists whatever the order of their
columns. The union of several queries therefore has the substitutions of all of them.
-/

namespace RuleGrounding

namespace ResultList

variable {r other : ResultList} {row : Row} {rows : List Row} {vs : List Variable}

/-- Every row has a constant for each variable. -/
def IsWide (r : ResultList) : Prop := ∀ row ∈ r.rows, row.length = r.vars.length

/-- The valuation is, on the variables, one of the substitutions that the rows are. -/
def Returns (r : ResultList) (τ : Valuation) : Prop := r.vars.map τ ∈ r.rows

/-- Rows that are there stay where they are. -/
theorem rows_prefix_push (r : ResultList) (row : Row) : r.rows <+: (r.push row).rows := by
  rw [push]
  split
  · exact List.prefix_rfl
  · exact List.prefix_append ..

theorem rows_prefix_pushAll (r : ResultList) (rows : List Row) :
    r.rows <+: (r.pushAll rows).rows := by
  induction rows generalizing r with
  | nil => exact List.prefix_rfl
  | cons row rows ih => exact (rows_prefix_push r row).trans (ih _)

section Columns

/-- The columns of variables that a list has, and what they select from a row that lists the
constants of a valuation. -/
theorem exists_columns (hvs : ∀ v ∈ vs, v ∈ other.vars) :
    ∃ columns, vs.mapM other.index? = some columns ∧
      ∀ τ : Valuation, columns.filterMap (fun i => (other.vars.map τ)[i]?) = vs.map τ := by
  induction vs with
  | nil => exact ⟨[], rfl, fun _ => rfl⟩
  | cons v vs ih =>
    obtain ⟨columns, hcolumns, hselect⟩ := ih fun u hu => hvs u (List.mem_cons_of_mem v hu)
    have hv : (other.vars.idxOf? v).isSome :=
      List.isSome_idxOf?.mpr (hvs v List.mem_cons_self)
    obtain ⟨i, hi⟩ := Option.isSome_iff_exists.mp hv
    obtain ⟨hlt, hget, -⟩ := List.idxOf?_eq_some_iff.mp hi
    refine ⟨i :: columns, ?_, fun τ => ?_⟩
    · rw [List.mapM_cons, index?, hi, hcolumns]
      rfl
    · have hcell : (other.vars.map τ)[i]? = some (τ v) := by
        rw [List.getElem?_map, List.getElem?_eq_getElem hlt]
        simpa using congrArg τ hget
      rw [List.filterMap_cons, hcell, hselect, List.map_cons]

/-- Rows with a constant for each of distinct variables are the substitutions that they are. -/
theorem exists_valuation (hnodup : r.vars.Nodup) (hwide : r.IsWide) (hrow : row ∈ r.rows) :
    ∃ τ : Valuation, row = r.vars.map τ ∧ r.Returns τ := by
  obtain ⟨τ, hτ⟩ := Valuation.exists_map_eq hnodup (hwide row hrow).symm
  refine ⟨τ, hτ.symm, ?_⟩
  rwa [Returns, hτ]

/-- Merging adds the substitutions of a list over the same variables, whatever their order. -/
theorem mem_rows_merge (hnodup : r.vars.Nodup) (hperm : other.vars.Perm r.vars)
    (hwide : other.IsWide) :
    row ∈ (r.merge other).rows ↔
      row ∈ r.rows ∨ ∃ τ : Valuation, row = r.vars.map τ ∧ other.Returns τ := by
  have hvars : ∀ v ∈ r.vars, v ∈ other.vars := fun v hv => hperm.mem_iff.mpr hv
  obtain ⟨columns, hcolumns, hselect⟩ := exists_columns hvars
  rw [merge, hcolumns]
  refine mem_rows_pushAll.trans (or_congr_right ?_)
  rw [List.mem_map]
  constructor
  · rintro ⟨row', hrow', rfl⟩
    obtain ⟨τ, rfl, hτ⟩ := exists_valuation (hperm.nodup_iff.mpr hnodup) hwide hrow'
    exact ⟨τ, hselect τ, hτ⟩
  · rintro ⟨τ, rfl, hτ⟩
    exact ⟨_, hτ, hselect τ⟩

end Columns

section Merge

theorem vars_merge (r other : ResultList) : (r.merge other).vars = r.vars := by
  rw [merge]
  split
  · rfl
  · exact vars_pushAll ..

theorem nodup_merge (h : r.rows.Nodup) (other : ResultList) : (r.merge other).rows.Nodup := by
  rw [merge]
  split
  · exact h
  · exact nodup_pushAll h _

theorem rows_prefix_merge (r other : ResultList) : r.rows <+: (r.merge other).rows := by
  rw [merge]
  split
  · exact List.prefix_rfl
  · exact rows_prefix_pushAll ..

end Merge

end ResultList

/-- What may happen to a result list. -/
inductive ResultChange where
  /-- A row is pushed. -/
  | push (row : Row)
  /-- A result list is merged into it. -/
  | merge (other : ResultList)
  deriving Repr

namespace RowCollector

variable {c : RowCollector}

/-- The set holds exactly the rows. -/
def InStep (c : RowCollector) : Prop := ∀ row, row ∈ c.seen ↔ row ∈ c.results.rows

theorem inStep_empty (vars : List Variable) : (empty vars).InStep := fun _ => Iff.rfl

/-- Apply a change. -/
def apply (c : RowCollector) : ResultChange → RowCollector
  | .push row => (c.push row).2
  | .merge other => c.merge other

/-- Apply several changes. -/
def after (c : RowCollector) (changes : List ResultChange) : RowCollector := changes.foldl apply c

section Push

/-- The answer tells whether the row is new. -/
theorem push_fst (h : c.InStep) (row : Row) : (c.push row).1 = true ↔ row ∉ c.results.rows := by
  rw [push, ← h]
  split <;> simp_all

/-- The row is looked up in the set, and so appended exactly if it is not there. -/
theorem results_push (h : c.InStep) (row : Row) :
    (c.push row).2.results = c.results.push row := by
  rw [push, ResultList.push]
  by_cases hrow : row ∈ c.seen
  · rw [if_pos (List.contains_iff_mem.mpr hrow), if_pos ((h row).mp hrow)]
  · rw [if_neg (mt List.contains_iff_mem.mp hrow), if_neg (mt (h row).mpr hrow)]

theorem inStep_push (h : c.InStep) (row : Row) : (c.push row).2.InStep := by
  intro row'
  rw [push]
  split
  · exact h row'
  · rw [OrderedSet.mem_insert, h, List.mem_append, List.mem_singleton, or_comm]

/-- Pushing several rows pushes them to the list, and the set stays in step. -/
theorem pushAll_eq (h : c.InStep) (rows : List Row) :
    (c.pushAll rows).results = c.results.pushAll rows ∧ (c.pushAll rows).InStep := by
  induction rows generalizing c with
  | nil => exact ⟨rfl, h⟩
  | cons row rows ih =>
    obtain ⟨hresults, hstep⟩ := ih (inStep_push h row)
    rw [results_push h] at hresults
    exact ⟨hresults, hstep⟩

/-- So does merging. -/
theorem merge_eq (h : c.InStep) (other : ResultList) :
    (c.merge other).results = c.results.merge other ∧ (c.merge other).InStep := by
  rw [merge, ResultList.merge]
  cases c.results.vars.mapM other.index? with
  | none => exact ⟨rfl, h⟩
  | some columns => exact pushAll_eq h _

end Push

/-- What every change preserves. -/
structure Sound (vars : List Variable) (c : RowCollector) : Prop where
  /-- The variables stay. -/
  vars_eq : c.results.vars = vars
  /-- No row comes twice. -/
  nodup : c.results.rows.Nodup
  /-- The set holds exactly the rows. -/
  inStep : c.InStep

theorem sound_empty (vars : List Variable) : (empty vars).Sound vars :=
  ⟨rfl, List.nodup_nil, inStep_empty vars⟩

theorem Sound.apply {vars : List Variable} (h : c.Sound vars) (change : ResultChange) :
    (c.apply change).Sound vars ∧ c.results.rows <+: (c.apply change).results.rows := by
  cases change with
  | push row =>
    have hresults := results_push h.inStep row
    refine ⟨⟨?_, ?_, inStep_push h.inStep row⟩, ?_⟩
    · exact (congrArg _ hresults).trans ((ResultList.vars_push ..).trans h.vars_eq)
    · exact hresults ▸ ResultList.nodup_push h.nodup row
    · exact hresults ▸ ResultList.rows_prefix_push ..
  | merge other =>
    obtain ⟨hresults, hstep⟩ := merge_eq h.inStep other
    refine ⟨⟨?_, ?_, hstep⟩, ?_⟩
    · exact (congrArg _ hresults).trans ((ResultList.vars_merge ..).trans h.vars_eq)
    · exact hresults ▸ ResultList.nodup_merge h.nodup other
    · exact hresults ▸ ResultList.rows_prefix_merge ..

theorem Sound.after {vars : List Variable} (h : c.Sound vars) (changes : List ResultChange) :
    (c.after changes).Sound vars ∧ c.results.rows <+: (c.after changes).results.rows := by
  induction changes generalizing c with
  | nil => exact ⟨h, List.prefix_rfl⟩
  | cons change changes ih =>
    obtain ⟨hnext, hprefix⟩ := h.apply change
    obtain ⟨hlast, hrest⟩ := ih hnext
    exact ⟨hlast, hprefix.trans hrest⟩

end RowCollector

namespace Query

variable {s : Store} {q : Query} {qs : List Query} {acc r : ResultList}

private theorem length_of_mapM {α β : Type} {f : α → Option β} {xs : List α} {ys : List β}
    (h : xs.mapM f = some ys) : ys.length = xs.length := by
  induction xs generalizing ys with
  | nil =>
    cases h
    rfl
  | cons x xs ih =>
    rw [List.mapM_cons] at h
    cases hx : f x with
    | none => simp [hx] at h
    | some y =>
      cases hxs : xs.mapM f with
      | none => simp [hx, hxs] at h
      | some zs =>
        rw [hx, hxs] at h
        cases h
        simp [ih hxs]

theorem isWide_answers (q : Query) (s : Store) : (q.answers s).IsWide := by
  intro row hrow
  rw [answers, ResultList.mem_rows_pushAll, List.mem_filterMap] at hrow
  obtain ⟨θ, -, hθ⟩ := hrow.resolve_left List.not_mem_nil
  rw [vars_answers, length_of_mapM hθ]

/-- The answers to a query have its variables, constants for all of them, and no repetition. -/
theorem answer_of_evaluate (h : q.evaluate s = .ok r) :
    r.vars = q.projection ∧ r.IsWide ∧ r.rows.Nodup := by
  obtain ⟨-, rfl⟩ := evaluate_eq_ok_iff.mp h
  exact ⟨vars_answers q s, isWide_answers q s, nodup_answers q s⟩

/-- A substitution is among the answers to a query. -/
def Answers (q : Query) (s : Store) (τ : Valuation) : Prop :=
  ∃ r, q.evaluate s = .ok r ∧ r.Returns τ

/-- Merging stops with the first query that is refused. -/
theorem mergeAll_eq_error_iff {fault : QueryFault} :
    mergeAll s acc qs = .error fault ↔ qs.findSome? fault? = some fault := by
  induction qs generalizing acc with
  | nil => simp [mergeAll]
  | cons q qs ih =>
    rw [mergeAll, List.findSome?_cons]
    cases hfault : q.fault? with
    | some fault' => simp [evaluate, hfault]
    | none => simpa [evaluate, hfault] using ih

/-- Merging the answers to queries over the same distinct variables, in whatever order each of them
returns these, adds what any of them returns. -/
theorem rows_of_mergeAll (hnodup : acc.vars.Nodup) (hdistinct : acc.rows.Nodup)
    (hqs : ∀ q ∈ qs, q.projection.Perm acc.vars) (h : mergeAll s acc qs = .ok r) :
    r.vars = acc.vars ∧ r.rows.Nodup ∧
      ∀ row, row ∈ r.rows ↔
        row ∈ acc.rows ∨ ∃ τ : Valuation, row = acc.vars.map τ ∧ ∃ q ∈ qs, q.Answers s τ := by
  induction qs generalizing acc with
  | nil =>
    cases h
    exact ⟨rfl, hdistinct, by simp⟩
  | cons q qs ih =>
    obtain ⟨hq, hqs⟩ := List.forall_mem_cons.mp hqs
    rw [mergeAll] at h
    cases heval : q.evaluate s with
    | error fault => simp [heval] at h
    | ok answer =>
      rw [heval] at h
      obtain ⟨hvars, hwide, -⟩ := answer_of_evaluate heval
      have hmerge : ∀ {row}, row ∈ (acc.merge answer).rows ↔
          row ∈ acc.rows ∨ ∃ τ : Valuation, row = acc.vars.map τ ∧ answer.Returns τ :=
        ResultList.mem_rows_merge hnodup (hvars ▸ hq) hwide
      have hanswer : ∀ {τ}, q.Answers s τ ↔ answer.Returns τ := by
        simp [Answers, heval]
      rw [← ResultList.vars_merge acc answer] at hnodup hqs
      obtain ⟨hr, hdistinct', hrows⟩ := ih hnodup (ResultList.nodup_merge hdistinct answer) hqs h
      rw [ResultList.vars_merge] at hr hrows
      refine ⟨hr, hdistinct', fun row => ?_⟩
      simp only [hrows, hmerge, List.mem_cons, exists_eq_or_imp, hanswer, and_or_left, exists_or,
        or_assoc]

/-- The union of queries over the same distinct variables returns what any of them returns. -/
theorem rows_of_evaluateUnion (hnodup : q.projection.Nodup)
    (hqs : ∀ q' ∈ qs, q'.projection.Perm q.projection) (h : evaluateUnion s (q :: qs) = .ok r) :
    r.vars = q.projection ∧ r.rows.Nodup ∧
      ∀ row, row ∈ r.rows ↔
        ∃ τ : Valuation, row = q.projection.map τ ∧ ∃ q' ∈ q :: qs, q'.Answers s τ := by
  rw [evaluateUnion] at h
  cases heval : q.evaluate s with
  | error fault => simp [heval] at h
  | ok answer =>
    rw [heval] at h
    obtain ⟨hvars, hwide, hdistinct⟩ := answer_of_evaluate heval
    rw [← hvars] at hnodup hqs ⊢
    obtain ⟨hr, hdistinct', hrows⟩ := rows_of_mergeAll hnodup hdistinct hqs h
    have hfirst : ∀ {row}, row ∈ answer.rows ↔
        ∃ τ : Valuation, row = answer.vars.map τ ∧ answer.Returns τ := by
      refine ⟨fun hrow => ResultList.exists_valuation hnodup hwide hrow, ?_⟩
      rintro ⟨τ, rfl, hτ⟩
      exact hτ
    have hanswer : ∀ {τ}, q.Answers s τ ↔ answer.Returns τ := by
      simp [Answers, heval]
    refine ⟨hr, hdistinct', fun row => ?_⟩
    simp only [hrows, hfirst, List.mem_cons, exists_eq_or_imp, hanswer, and_or_left, exists_or]

/-- There is no union of no queries, and otherwise the first refusal is the reason why there is
none. -/
theorem evaluateUnion_eq_error_iff {fault : QueryFault} :
    evaluateUnion s qs = .error fault ↔
      (qs = [] ∧ fault = .emptyUnion) ∨ qs.findSome? fault? = some fault := by
  cases qs with
  | nil => simp [evaluateUnion, eq_comm]
  | cons q qs =>
    rw [evaluateUnion, List.findSome?_cons]
    cases hfault : q.fault? with
    | some fault' => simp [evaluate, hfault]
    | none => simp [evaluate, hfault, mergeAll_eq_error_iff]

theorem exists_evaluateUnion_eq_error_iff :
    (∃ fault, evaluateUnion s qs = .error fault) ↔
      qs = [] ∨ ∃ q ∈ qs, ∃ fault, q.evaluate s = .error fault := by
  have hrefused : ∀ q : Query, (∃ fault, q.evaluate s = .error fault) ↔ q.fault?.isSome := by
    intro q
    cases hfault : q.fault? <;> simp [evaluate, hfault]
  simp only [evaluateUnion_eq_error_iff, exists_or, exists_eq_right, hrefused,
    ← Option.isSome_iff_exists, List.findSome?_isSome_iff]

end Query

/-- After any pushes and merges, the rows of a result list over distinct variables are distinct. A
push answers whether the row is new, and then appends it. Merging a list over the same variables, in
whatever order, keeps the rows that are there in front and joins the substitutions of both, matched
by variable. Therefore the union of queries that return the same distinct variables, each in its
own order, has in the order of the first of them exactly the substitutions that one of them
returns, each once. There is none exactly if there is no query or one is refused. -/
theorem results_are_sets_with_unions :
    (∀ vars changes, vars.Nodup →
      let c := (RowCollector.empty vars).after changes
      c.results.vars = vars ∧ c.results.rows.Nodup ∧
        (∀ row, row ∈ c.seen ↔ row ∈ c.results.rows) ∧
        (∀ row, ((c.push row).1 = true ↔ row ∉ c.results.rows) ∧
          (c.push row).2.results.rows =
            c.results.rows ++ if row ∈ c.results.rows then [] else [row]) ∧
        ∀ other, other.vars.Perm vars → other.IsWide →
          c.results.rows <+: (c.merge other).results.rows ∧
            ∀ row, row ∈ (c.merge other).results.rows ↔
              row ∈ c.results.rows ∨ ∃ τ : Valuation, row = vars.map τ ∧ other.Returns τ) ∧
    (∀ (s : Store) (q : Query) (qs : List Query) (r : ResultList), q.projection.Nodup →
      (∀ q' ∈ qs, q'.projection.Perm q.projection) → Query.evaluateUnion s (q :: qs) = .ok r →
      r.vars = q.projection ∧ r.rows.Nodup ∧
        ∀ row, row ∈ r.rows ↔
          ∃ τ : Valuation, row = q.projection.map τ ∧ ∃ q' ∈ q :: qs, q'.Answers s τ) ∧
    ∀ (s : Store) (qs : List Query),
      (∃ fault, Query.evaluateUnion s qs = .error fault) ↔
        qs = [] ∨ ∃ q ∈ qs, ∃ fault, q.evaluate s = .error fault := by
  refine ⟨?_, ?_, ?_⟩
  · intro vars changes hvars c
    have hc : c.Sound vars := ((RowCollector.sound_empty vars).after changes).1
    clear_value c
    refine ⟨hc.vars_eq, hc.nodup, hc.inStep, ?_, ?_⟩
    · intro row
      refine ⟨RowCollector.push_fst hc.inStep row, ?_⟩
      rw [RowCollector.results_push hc.inStep, ResultList.push]
      split <;> simp
    · intro other hperm hwide
      obtain ⟨hresults, -⟩ := RowCollector.merge_eq hc.inStep other
      rw [← hc.vars_eq] at hvars hperm
      rw [hresults, ← hc.vars_eq]
      exact ⟨ResultList.rows_prefix_merge _ other, fun row =>
        ResultList.mem_rows_merge hvars hperm hwide⟩
  · intro s q qs r hnodup hqs h
    exact Query.rows_of_evaluateUnion hnodup hqs h
  · intro s qs
    exact Query.exists_evaluateUnion_eq_error_iff

/-- Columns are matched by variable: `b, a` over `B, A` is the row that is there already. -/
example :
    ((RowCollector.empty [⟨"A"⟩, ⟨"B"⟩]).after [.push [.text "a", .text "b"],
      .merge ⟨[⟨"B"⟩, ⟨"A"⟩], [[.text "b", .text "a"], [.text "c", .text "a"]]⟩]).results.rows =
      [[.text "a", .text "b"], [.text "a", .text "c"]] := by
  decide +kernel

end RuleGrounding
