import RuleGrounding.Proofs.Query.Join
import RuleGrounding.Proofs.Query.Results

/-!
# Answers to queries

Evaluation is sound and complete: the rows of the answer are the projections of
the satisfying valuations, each once. Neither the order of the generators nor the
filter by pinned variables nor the early run of filters adds or loses a row.
-/

namespace RuleGrounding

namespace Query

/-- Which partitions the generator with an index sees. -/
def sees (q : Query) (s : Store) (i : Nat) : PartitionId → Bool :=
  if q.lazyTarget? = some i then fun p => decide (p = s.layout.lazy) else s.layout.contains

theorem mem_generators {q : Query} {i : Nat} {l : Literal} :
    (i, l) ∈ q.generators ↔ q.literals[i]? = some l ∧ l.generates = true := by
  rw [generators, List.mem_filter]
  refine and_congr_left fun _ => ?_
  rw [List.mem_iff_getElem?]
  constructor
  · rintro ⟨j, hj⟩
    obtain ⟨hr, hl⟩ := List.getElem?_zip_eq_some.mp hj
    obtain ⟨_, rfl⟩ := List.getElem?_eq_some_iff.mp hr
    simpa using hl
  · intro hl
    have hi : i < q.literals.length := (List.getElem?_eq_some_iff.mp hl).1
    exact ⟨i, List.getElem?_zip_eq_some.mpr ⟨List.getElem?_range hi, hl⟩⟩

theorem mem_orderedGenerators {q : Query} {s : Store} {g : Atom × List Row} :
    g ∈ q.orderedGenerators s ↔
      ∃ i l, (i, l) ∈ q.generators ∧ g = (l.atom, s.candidates l.atom q.pinned (q.sees s i)) := by
  simp only [orderedGenerators, List.partition_eq_filter_filter, List.mem_append,
    List.mem_mergeSort, List.mem_map, List.mem_filter, Prod.exists, Function.comp_apply,
    Bool.not_eq_true', decide_eq_true_eq, decide_eq_false_iff_not]
  constructor
  · rintro (⟨i, l, ⟨hm, ht⟩, rfl⟩ | ⟨i, l, ⟨hm, ht⟩, rfl⟩) <;> exact ⟨i, l, hm, by simp [sees, ht]⟩
  · rintro ⟨i, l, hm, rfl⟩
    by_cases ht : q.lazyTarget? = some i
    · exact .inl ⟨i, l, ⟨hm, ht⟩, by simp [sees, ht]⟩
    · exact .inr ⟨i, l, ⟨hm, ht⟩, by simp [sees, ht]⟩

/-- A single generator is joined with its candidates alone. -/
theorem orderedGenerators_of_generators_eq {q : Query} {s : Store} {i : Nat} {l : Literal}
    (h : q.generators = [(i, l)]) :
    q.orderedGenerators s = [(l.atom, s.candidates l.atom q.pinned (q.sees s i))] := by
  rw [orderedGenerators, h, sees]
  by_cases ht : q.lazyTarget? = some i
  · simp [ht]
  · simp [ht]

/-- Every literal generates or filters. -/
theorem mem_filters {q : Query} {l : Literal} :
    l ∈ q.filters ↔ l ∈ q.literals ∧ l.generates = false := by
  rw [filters, List.mem_filter, Bool.not_eq_true']

theorem fault?_eq_none_iff {q : Query} : q.fault? = none ↔
    q.targetFault? = none ∧ q.projectionFault? = none ∧ q.filterFault? = none := by
  rw [fault?]
  cases q.targetFault? <;> cases q.projectionFault? <;> simp

/-- A query that is not refused binds every variable of its filters. -/
theorem mem_boundVariables_of_filter {q : Query} (h : q.fault? = none) {l : Literal}
    (hl : l ∈ q.filters) {v : Variable} (hv : v ∈ l.atom.vars) : v ∈ q.boundVariables := by
  have hf := (fault?_eq_none_iff.mp h).2.2
  rw [filterFault?, List.findSome?_eq_none_iff] at hf
  have hfind := Option.map_eq_none_iff.mp (hf l hl)
  simpa using List.find?_eq_none.mp hfind v hv

/-- A query that is not refused binds every variable that it returns. -/
theorem mem_boundVariables_of_projection {q : Query} (h : q.fault? = none) {v : Variable}
    (hv : v ∈ q.projection) : v ∈ q.boundVariables := by
  have hp := (fault?_eq_none_iff.mp h).2.1
  have hfind := List.find?_eq_none.mp (Option.map_eq_none_iff.mp hp) v hv
  by_cases hpin : v ∈ q.pinned.keys
  · exact List.mem_append_left _ hpin
  have hform : v ∈ q.formulaVariables := by
    simpa [Bool.eq_false_iff, FiniteMap.contains_iff, hpin] using hfind
  obtain ⟨l, hl, hvl⟩ := List.mem_flatMap.mp (mem_distinct.mp hform)
  cases hg : l.generates with
  | false => exact mem_boundVariables_of_filter h (mem_filters.mpr ⟨hl, hg⟩) hvl
  | true =>
    obtain ⟨i, hi⟩ := List.mem_iff_getElem?.mp hl
    exact List.mem_append_right _
      (List.mem_flatMap.mpr ⟨(i, l), mem_generators.mpr ⟨hi, hg⟩, hvl⟩)

/-- The lazy target of a query that is not refused generates bindings. -/
theorem generates_of_target {q : Query} (h : q.fault? = none) {i : Nat} {l : Literal}
    (ht : q.lazyTarget? = some i) (hl : q.literals[i]? = some l) : l.generates = true := by
  have hf := (fault?_eq_none_iff.mp h).1
  simp only [targetFault?, ht, hl] at hf
  split at hf
  · rename_i hg
    simpa using hg
  · cases hf

/-- The instance of a generator is among its candidates exactly when it is stored where the
generator looks. -/
theorem mem_candidates_sees {q : Query} {s : Store} {σ : Valuation} (h : σ.Extends q.pinned)
    (i : Nat) (a : Atom) : a.instanceArgs σ ∈ s.candidates a q.pinned (q.sees s i) ↔
      ∃ stored, s.Holds a.predicate (a.instanceArgs σ) stored ∧
        (q.lazyTarget? = some i → stored.partition = s.layout.lazy) := by
  have hlazy := s.layout.contains_lazy
  rw [Store.mem_candidates h]
  constructor
  · rintro ⟨k, stored, hp, ha, hf, hsees⟩
    by_cases ht : q.lazyTarget? = some i
    · rw [sees, if_pos ht, decide_eq_true_eq] at hsees
      exact ⟨stored, ⟨k, hp, ha, Store.get?_eq_some_iff.mpr ⟨hf, hsees ▸ hlazy⟩⟩, fun _ => hsees⟩
    · rw [sees, if_neg ht] at hsees
      exact ⟨stored, ⟨k, hp, ha, Store.get?_eq_some_iff.mpr ⟨hf, hsees⟩⟩, fun h => absurd h ht⟩
  · rintro ⟨stored, ⟨k, hp, ha, hg⟩, ht⟩
    obtain ⟨hf, hc⟩ := Store.get?_eq_some_iff.mp hg
    refine ⟨k, stored, hp, ha, hf, ?_⟩
    rw [sees]
    split
    · rename_i hi
      simpa using ht hi
    · exact hc

/-- A positive standard literal holds if its instance is stored. -/
theorem holdsIn_of_generates {l : Literal} (hl : l.generates = true) {s : Store} {σ : Valuation} :
    l.HoldsIn s σ ↔ ∃ stored, s.Holds l.atom.predicate (l.atom.instanceArgs σ) stored := by
  rw [Literal.generates, Bool.and_eq_true, Bool.not_eq_true', Predicate.isStandard,
    decide_eq_true_eq] at hl
  simp only [Literal.HoldsIn, hl.1, hl.2]

/-- Satisfaction, with the generators apart from the filters. -/
theorem satisfiedBy_iff {q : Query} (h : q.fault? = none) {s : Store} {σ : Valuation} :
    q.SatisfiedBy s σ ↔ σ.Extends q.pinned ∧
      (∀ g ∈ q.orderedGenerators s, g.1.instanceArgs σ ∈ g.2) ∧
      ∀ l ∈ q.filters, l.HoldsIn s σ := by
  constructor
  · rintro ⟨hpin, hlits, htarget⟩
    refine ⟨hpin, fun g hg => ?_, fun l hl => hlits l (mem_filters.mp hl).1⟩
    obtain ⟨i, l, hm, rfl⟩ := mem_orderedGenerators.mp hg
    obtain ⟨hi, hgen⟩ := mem_generators.mp hm
    rw [mem_candidates_sees hpin]
    by_cases ht : q.lazyTarget? = some i
    · obtain ⟨stored, hs, hp⟩ := htarget i l ht hi
      exact ⟨stored, hs, fun _ => hp⟩
    · obtain ⟨stored, hs⟩ :=
        (holdsIn_of_generates hgen).mp (hlits l (List.mem_of_getElem? hi))
      exact ⟨stored, hs, fun h => absurd h ht⟩
  · rintro ⟨hpin, hgens, hfilters⟩
    have hstored : ∀ i l, q.literals[i]? = some l → l.generates = true →
        ∃ stored, s.Holds l.atom.predicate (l.atom.instanceArgs σ) stored ∧
          (q.lazyTarget? = some i → stored.partition = s.layout.lazy) := by
      intro i l hi hgen
      rw [← mem_candidates_sees hpin]
      exact hgens _ (mem_orderedGenerators.mpr ⟨i, l, mem_generators.mpr ⟨hi, hgen⟩, rfl⟩)
    refine ⟨hpin, fun l hl => ?_, fun i l ht hi => ?_⟩
    · cases hgen : l.generates with
      | false => exact hfilters l (mem_filters.mpr ⟨hl, hgen⟩)
      | true =>
        obtain ⟨i, hi⟩ := List.mem_iff_getElem?.mp hl
        obtain ⟨stored, hs, -⟩ := hstored i l hi hgen
        exact (holdsIn_of_generates hgen).mpr ⟨stored, hs⟩
    · obtain ⟨stored, hs, hp⟩ := hstored i l hi (generates_of_target h ht hi)
      exact ⟨stored, hs, hp ht⟩

section Solutions

variable {q : Query} {s : Store}

/-- The filters that still wait once the pinned variables are bound. -/
def waiting (q : Query) : List Literal :=
  q.filters.filter fun l => !l.atom.vars.all fun v => decide (v ∈ q.pinned.keys)

private theorem length_of_mem_orderedGenerators (ha : q.HasArities) {g : Atom × List Row}
    (hg : g ∈ q.orderedGenerators s) {row : Row} (hrow : row ∈ g.2) :
    g.1.args.length = row.length := by
  obtain ⟨i, l, hm, rfl⟩ := mem_orderedGenerators.mp hg
  rw [Store.length_of_mem_candidates hrow]
  exact ha l (List.mem_of_getElem? (mem_generators.mp hm).1)

theorem staged_waiting (ha : q.HasArities) :
    Staged q.pinned.keys (schedule q.pinned.keys q.waiting (q.orderedGenerators s)) :=
  staged_schedule (fun _ hl => (mem_filters.mp (List.mem_filter.mp hl).1).2)
    fun _ hg _ hrow => length_of_mem_orderedGenerators ha hg hrow

private theorem mem_boundVariables_iff {v : Variable} :
    v ∈ q.boundVariables ↔
      v ∈ q.pinned.keys ++ (q.orderedGenerators s).flatMap fun g => g.1.vars := by
  simp only [boundVariables, List.mem_append, List.mem_flatMap]
  refine or_congr_right ⟨?_, ?_⟩
  · rintro ⟨⟨i, l⟩, hm, hv⟩
    exact ⟨_, mem_orderedGenerators.mpr ⟨i, l, hm, rfl⟩, hv⟩
  · rintro ⟨g, hg, hv⟩
    obtain ⟨i, l, hm, rfl⟩ := mem_orderedGenerators.mp hg
    exact ⟨(i, l), hm, hv⟩

private theorem forall_passedBy_iff (h : q.fault? = none) {σ : Valuation} :
    (∀ stage ∈ schedule q.pinned.keys q.waiting (q.orderedGenerators s), stage.PassedBy s σ) ↔
      (∀ g ∈ q.orderedGenerators s, g.1.instanceArgs σ ∈ g.2) ∧
        ∀ l ∈ q.waiting, l.HoldsIn s σ := by
  simp only [JoinStage.PassedBy, forall_and]
  refine and_congr ?_ (forall_filters_schedule (fun l hl => ?_) fun l hl v hv => ?_)
  · rw [← List.forall_mem_map (f := fun stage : JoinStage => (stage.atom, stage.rows))
      (P := fun g => g.1.instanceArgs σ ∈ g.2), map_schedule]
  · have hnot := (List.mem_filter.mp hl).2
    simpa using hnot
  · exact mem_boundVariables_iff.mp (mem_boundVariables_of_filter h (List.mem_filter.mp hl).1 hv)

/-- The filters hold if those that can run at once do, and those that wait. -/
private theorem forall_filters_iff {P : Literal → Prop} :
    (∀ l ∈ q.filters, P l) ↔
      (∀ l ∈ q.filters.filter fun l => l.atom.vars.all fun v => decide (v ∈ q.pinned.keys), P l) ∧
        ∀ l ∈ q.waiting, P l := by
  constructor
  · exact fun hall => ⟨fun l hl => hall l (List.mem_filter.mp hl).1,
      fun l hl => hall l (List.mem_filter.mp hl).1⟩
  · rintro ⟨hready, hwaiting⟩ l hl
    cases hr : l.atom.vars.all fun v => decide (v ∈ q.pinned.keys) with
    | true => exact hready l (List.mem_filter.mpr ⟨hl, hr⟩)
    | false => exact hwaiting l (List.mem_filter.mpr ⟨hl, by rw [hr]; rfl⟩)

/-- The solutions of a query are the assignments of its satisfying valuations. -/
theorem exists_mem_solutions_iff (ha : q.HasArities) (h : q.fault? = none) {σ : Valuation} :
    (∃ θ ∈ q.solutions s, σ.Extends θ) ↔ q.SatisfiedBy s σ := by
  have hjoin := Store.exists_mem_join_iff (s := s) (σ := σ) (θ := q.pinned)
    (staged_waiting (s := s) ha) fun _ => Iff.rfl
  have hready : σ.Extends q.pinned →
      ((q.filters.filter fun l => l.atom.vars.all fun v => decide (v ∈ q.pinned.keys)).all
          (s.filterHolds q.pinned) = true ↔
        ∀ l ∈ q.filters.filter fun l => l.atom.vars.all fun v => decide (v ∈ q.pinned.keys),
          l.HoldsIn s σ) := by
    intro hσ
    rw [List.all_eq_true]
    refine forall₂_congr fun l hl => ?_
    obtain ⟨hl, hv⟩ := List.mem_filter.mp hl
    refine Store.filterHolds_iff (mem_filters.mp hl).2 hσ fun v hv' => ?_
    simpa using List.all_eq_true.mp hv v hv'
  rw [satisfiedBy_iff h, forall_filters_iff, solutions]
  simp only [List.partition_eq_filter_filter]
  rw [forall_passedBy_iff h] at hjoin
  constructor
  · intro hex
    split at hex
    · rename_i hall
      obtain ⟨hσ, hgens, hwait⟩ := hjoin.mp hex
      exact ⟨hσ, hgens, (hready hσ).mp hall, hwait⟩
    · obtain ⟨_, hm, _⟩ := hex
      cases hm
  · rintro ⟨hσ, hgens, hnow, hwait⟩
    rw [if_pos ((hready hσ).mpr hnow)]
    exact hjoin.mpr ⟨hσ, hgens, hwait⟩

/-- A solution binds the pinned variables and those of the generators. -/
theorem mem_keys_of_mem_solutions (ha : q.HasArities) {θ : Assignment}
    (hθ : θ ∈ q.solutions s) {v : Variable} (hv : v ∈ q.boundVariables) : v ∈ θ.keys := by
  rw [solutions] at hθ
  simp only [List.partition_eq_filter_filter] at hθ
  split at hθ
  · rw [Store.mem_keys_join (staged_waiting ha) hθ]
    refine (List.mem_append.mp ((mem_boundVariables_iff (s := s)).mp hv)).imp id fun hg => ?_
    obtain ⟨g, hg, hv⟩ := List.mem_flatMap.mp hg
    rw [← map_schedule q.pinned.keys q.waiting (q.orderedGenerators s)] at hg
    obtain ⟨stage, hstage, rfl⟩ := List.mem_map.mp hg
    exact ⟨stage, hstage, hv⟩
  · cases hθ

theorem mapM_find? {θ : Assignment} {σ : Valuation} (hσ : σ.Extends θ)
    {vs : List Variable} (hvs : ∀ v ∈ vs, v ∈ θ.keys) : vs.mapM θ.find? = some (vs.map σ) := by
  induction vs with
  | nil => rfl
  | cons v vs ih =>
    rw [List.mapM_cons, hσ.find?_eq (hvs v List.mem_cons_self),
      ih fun u hu => hvs u (List.mem_cons_of_mem v hu)]
    rfl

/-- The rows of the answer to a query that is not refused. -/
theorem mem_rows_answers_iff (ha : q.HasArities) (h : q.fault? = none) {t : Row} :
    t ∈ (q.answers s).rows ↔ ∃ σ, q.SatisfiedBy s σ ∧ t = q.projection.map σ := by
  have hrow : ∀ θ ∈ q.solutions s, ∀ σ : Valuation, σ.Extends θ →
      q.projection.mapM θ.find? = some (q.projection.map σ) := fun θ hθ σ hσ =>
    mapM_find? hσ fun v hv =>
      mem_keys_of_mem_solutions ha hθ (mem_boundVariables_of_projection h hv)
  rw [answers, ResultList.mem_rows_pushAll, List.mem_filterMap]
  simp only [ResultList.empty, List.not_mem_nil, false_or]
  constructor
  · rintro ⟨θ, hθ, ht⟩
    have hσ := Valuation.ofAssignment_extends θ
    rw [hrow θ hθ _ hσ] at ht
    exact ⟨_, (exists_mem_solutions_iff ha h).mp ⟨θ, hθ, hσ⟩, (Option.some.inj ht).symm⟩
  · rintro ⟨σ, hσ, rfl⟩
    obtain ⟨θ, hθ, hext⟩ := (exists_mem_solutions_iff ha h).mpr hσ
    exact ⟨θ, hθ, hrow θ hθ σ hext⟩

/-- A query is evaluated to its answers exactly when it is not refused. -/
theorem evaluate_eq_ok_iff {r : ResultList} :
    q.evaluate s = .ok r ↔ q.fault? = none ∧ q.answers s = r := by
  rw [evaluate]
  split <;> simp_all

/-- The rows of an answer are the restrictions of the satisfying valuations to the returned
variables, each of them once. -/
theorem evaluate_rows_eq_projections (ha : q.HasArities) {r : ResultList}
    (h : q.evaluate s = .ok r) :
    r.vars = q.projection ∧ r.rows.Nodup ∧
      ∀ t, t ∈ r.rows ↔ ∃ σ, q.SatisfiedBy s σ ∧ t = q.projection.map σ := by
  obtain ⟨hnone, rfl⟩ := evaluate_eq_ok_iff.mp h
  refine ⟨?_, ?_, fun t => mem_rows_answers_iff ha hnone⟩
  · rw [answers, ResultList.vars_pushAll, ResultList.empty]
  · exact ResultList.nodup_pushAll List.nodup_nil _

end Solutions

/-- A relation between two integers. -/
def sampleRelation : Predicate := .standard "Knows" [.integer, .integer]

/-- Three stored atoms: one of evidence, one staged, and one target of value zero. -/
def sampleStore : Store where
  rows := .ofList [
    (⟨sampleRelation, [.integer 1, .integer 2], rfl⟩, ⟨1.0, ⟨0⟩⟩),
    (⟨sampleRelation, [.integer 2, .integer 3], rfl⟩, ⟨0.5, ⟨2⟩⟩),
    (⟨sampleRelation, [.integer 3, .integer 2], rfl⟩, ⟨0.0, ⟨1⟩⟩)]
  layout := ⟨[⟨0⟩], ⟨1⟩, ⟨2⟩⟩
  defaultValue := 0.0

/-- Who is reached in two steps, the second of them staged, without a way back. -/
def sampleQuery : Query where
  literals := [
    .positive ⟨sampleRelation, [.var ⟨"A"⟩, .var ⟨"B"⟩]⟩,
    .positive ⟨sampleRelation, [.var ⟨"B"⟩, .var ⟨"C"⟩]⟩,
    .positive ⟨.ofBuiltin .notEqual .integer, [.var ⟨"A"⟩, .var ⟨"C"⟩]⟩,
    .negative ⟨sampleRelation, [.var ⟨"C"⟩, .var ⟨"B"⟩]⟩]
  projection? := some [⟨"A"⟩, ⟨"C"⟩]
  pinned := .ofList [(⟨"A"⟩, .integer 1)]
  lazyTarget? := some 1

private theorem evaluate_sampleQuery :
    sampleQuery.evaluate sampleStore = .ok ⟨[⟨"A"⟩, ⟨"C"⟩], [[.integer 1, .integer 3]]⟩ := by
  have hgens : sampleQuery.orderedGenerators sampleStore =
      [(⟨sampleRelation, [.var ⟨"B"⟩, .var ⟨"C"⟩]⟩, [[.integer 2, .integer 3]]),
        (⟨sampleRelation, [.var ⟨"A"⟩, .var ⟨"B"⟩]⟩, [[.integer 1, .integer 2]])] := by
    have hstaged : sampleStore.candidates ⟨sampleRelation, [.var ⟨"B"⟩, .var ⟨"C"⟩]⟩
        sampleQuery.pinned (fun p => decide (p = ⟨2⟩)) = [[.integer 2, .integer 3]] :=
      List.mergeSort_singleton [Constant.integer 2, .integer 3]
    have hpinned : sampleStore.candidates ⟨sampleRelation, [.var ⟨"A"⟩, .var ⟨"B"⟩]⟩
        sampleQuery.pinned sampleStore.layout.contains = [[.integer 1, .integer 2]] :=
      List.mergeSort_singleton [Constant.integer 1, .integer 2]
    change [(_, sampleStore.candidates _ _ _)] ++
      [(_, sampleStore.candidates _ _ _)].mergeSort _ = _
    rw [List.mergeSort_singleton]
    exact (congrArg (fun x => [(_, x), (_, _)]) hstaged).trans
      (congrArg (fun y => [(_, _), (_, y)]) hpinned)
  rw [evaluate_eq_ok_iff]
  refine ⟨by decide, ?_⟩
  rw [answers, solutions, hgens]
  rfl

/-- The query is accepted, and its one row is the restriction of every satisfying valuation. -/
theorem evaluate_sampleQuery_rows :
    sampleQuery.HasArities ∧
      ([[.integer 1, .integer 3]] : List Row).Nodup ∧
      ∀ t, t ∈ ([[.integer 1, .integer 3]] : List Row) ↔
        ∃ σ, sampleQuery.SatisfiedBy sampleStore σ ∧ t = [σ ⟨"A"⟩, σ ⟨"C"⟩] :=
  ⟨by decide, (evaluate_rows_eq_projections (by decide) evaluate_sampleQuery).2⟩

end Query

end RuleGrounding
