import Mathlib.Data.List.Perm.Basic
import RuleGrounding.Proofs.Activation.Stages
import RuleGrounding.Proofs.Activation.Subscribers
import RuleGrounding.Proofs.Formula.Occurrences
import RuleGrounding.Proofs.Grounding.Clauses
import RuleGrounding.Proofs.Store.Staging

/-!
# What staged atoms add to the answers

The body of a rule asks only for what is stored, so staging atoms adds answers and
takes none away. The answers that are new are those that involve a staged atom, and
the union of the queries with one lazy target each finds exactly these.
-/

namespace RuleGrounding

namespace Literal

variable {l : Literal} {s s' : Store} {σ : Valuation}

/-- A literal that binds variables asks for a stored atom. -/
theorem holdsIn_iff_stores (hl : l.generates = true) : l.HoldsIn s σ ↔
    ∃ k, k.predicate = l.atom.predicate ∧ k.args = l.atom.instanceArgs σ ∧ s.Stores k := by
  rw [Query.holdsIn_of_generates hl]
  constructor
  · rintro ⟨stored, k, hp, ha, hk⟩
    exact ⟨k, hp, ha, stored, hk⟩
  · rintro ⟨k, hp, ha, stored, hk⟩
    exact ⟨stored, k, hp, ha, hk⟩

/-- Any other positive literal does not depend on the store. -/
theorem holdsIn_congr_store (hpositive : l.negated = false) (hl : l.generates = false) :
    l.HoldsIn s σ ↔ l.HoldsIn s' σ := by
  cases hk : l.atom.predicate.kind with
  | standard =>
    rw [generates, hpositive, Predicate.isStandard, hk] at hl
    cases hl
  | functional builtin => simp only [HoldsIn, hpositive, hk]

end Literal

namespace LogicalRule

/-- The atoms of the clause have the declared number of arguments. -/
def HasArities (r : LogicalRule) : Prop := ∀ l ∈ r.clause, l.atom.HasArity

/-- A valuation satisfies the body. -/
def SatisfiedBy (r : LogicalRule) (s : Store) (σ : Valuation) : Prop :=
  ∀ l ∈ r.query, l.HoldsIn s σ

/-- The body involves one of some atoms under a valuation. -/
def Touches (r : LogicalRule) (keys : List GroundKey) (σ : Valuation) : Prop :=
  ∃ l ∈ r.query, l.generates = true ∧
    ∃ k ∈ keys, k.predicate = l.atom.predicate ∧ k.args = l.atom.instanceArgs σ

/-- The body involves an atom of the lazy partition under a valuation. -/
def InvolvesStaged (r : LogicalRule) (s : Store) (σ : Valuation) : Prop :=
  ∃ l ∈ r.query, l.generates = true ∧
    ∃ stored, s.Holds l.atom.predicate (l.atom.instanceArgs σ) stored ∧
      stored.partition = s.layout.lazy

variable {r : LogicalRule} {s s' : Store} {σ τ : Valuation} {keys : List GroundKey}

theorem negated_of_mem_query {l : Literal} (hl : l ∈ r.query) : l.negated = false := by
  simpa using (List.mem_filter.mp hl).2

theorem mem_clause_of_mem_query {l : Literal} (hl : l ∈ r.query) : l ∈ r.clause :=
  (List.mem_filter.mp hl).1

/-- The atoms of the clause occur in the formula that the rule was made from. -/
theorem mem_occurrences_of_make {name : String} {formula : Formula} {weight : Option Float}
    (h : make name formula weight = .ok r) {l : Literal} (hl : l ∈ r.clause) :
    l.atom ∈ formula.occurrences := by
  obtain ⟨clause, hclause, -, rfl⟩ := eq_of_make h
  have hmem : clause ∈ formula.expand true := by
    rw [hclause]
    exact List.mem_singleton_self clause
  exact Formula.mem_occurrences_of_mem_expand formula true hmem hl

/-- A rule made of checked atoms has the declared numbers of arguments. -/
theorem hasArities_of_make {name : String} {formula : Formula} {weight : Option Float}
    (h : make name formula weight = .ok r) (ha : ∀ a ∈ formula.occurrences, a.HasArity) :
    r.HasArities :=
  fun _ hl => ha _ (mem_occurrences_of_make h hl)

/-- The rows of a rule are the restrictions of the valuations that satisfy its body. -/
theorem mem_rows_groundingQuery (ha : r.HasArities) (h : r.groundingQuery.fault? = none)
    {row : Row} : row ∈ (r.groundingQuery.answers s).rows ↔
      ∃ σ, r.SatisfiedBy s σ ∧ row = r.vars.map σ := by
  have harities : r.groundingQuery.HasArities := fun l hl => ha l (mem_clause_of_mem_query hl)
  rw [Query.mem_rows_answers_iff harities h]
  refine exists_congr fun σ => and_congr_left fun _ => ?_
  rw [Query.satisfiedBy_iff_of_no_target rfl]
  exact and_iff_right (Valuation.extends_empty σ)

/-- Stores that store the same atoms satisfy the same bodies. -/
theorem satisfiedBy_congr (h : ∀ k, s'.Stores k ↔ s.Stores k) :
    r.SatisfiedBy s' σ ↔ r.SatisfiedBy s σ := by
  refine forall₂_congr fun l hl => ?_
  cases hgen : l.generates with
  | false => exact Literal.holdsIn_congr_store (negated_of_mem_query hl) hgen
  | true =>
    rw [Literal.holdsIn_iff_stores hgen, Literal.holdsIn_iff_stores hgen]
    exact exists_congr fun k => by rw [h k]

/-- Before atoms are staged a body is satisfied exactly if it is so afterwards and involves none
of them. -/
theorem satisfiedBy_iff_of_stages (h : s.Stages s' keys) :
    r.SatisfiedBy s σ ↔ r.SatisfiedBy s' σ ∧ ¬ r.Touches keys σ := by
  constructor
  · intro hs
    refine ⟨fun l hl => ?_, ?_⟩
    · cases hgen : l.generates with
      | false =>
        exact (Literal.holdsIn_congr_store (negated_of_mem_query hl) hgen).mp (hs l hl)
      | true =>
        obtain ⟨k, hp, ha, hk⟩ := (Literal.holdsIn_iff_stores hgen).mp (hs l hl)
        exact (Literal.holdsIn_iff_stores hgen).mpr ⟨k, hp, ha, (h.stores_iff k).mpr (.inl hk)⟩
    · rintro ⟨l, hl, hgen, k, hk, hp, ha⟩
      obtain ⟨k', hp', ha', hk'⟩ := (Literal.holdsIn_iff_stores hgen).mp (hs l hl)
      rw [GroundKey.ext (hp'.trans hp.symm) (ha'.trans ha.symm)] at hk'
      exact h.not_stores hk hk'
  · rintro ⟨hs, htouches⟩ l hl
    cases hgen : l.generates with
    | false => exact (Literal.holdsIn_congr_store (negated_of_mem_query hl) hgen).mpr (hs l hl)
    | true =>
      obtain ⟨k, hp, ha, hk⟩ := (Literal.holdsIn_iff_stores hgen).mp (hs l hl)
      refine (Literal.holdsIn_iff_stores hgen).mpr ⟨k, hp, ha, ?_⟩
      exact ((h.stores_iff k).mp hk).resolve_right fun hmem =>
        htouches ⟨l, hl, hgen, k, hmem, hp, ha⟩

/-- The variables of a clause are those of the rule. -/
theorem mem_vars_of_mem_clause {l : Literal} (hl : l ∈ r.clause) {v : Variable}
    (hv : v ∈ l.atom.vars) : v ∈ r.vars :=
  mem_distinct.mpr (List.mem_flatMap.mpr ⟨l, hl, hv⟩)

/-- The instance of a literal's atom can be read off the row. -/
theorem instanceArgs_of_map_eq (h : r.vars.map σ = r.vars.map τ) {l : Literal}
    (hl : l ∈ r.clause) : l.atom.instanceArgs σ = l.atom.instanceArgs τ :=
  Atom.instanceArgs_congr fun v hv => List.map_inj_left.mp h v (mem_vars_of_mem_clause hl hv)

/-- Whether the body involves an atom can be read off the row. -/
theorem touches_congr (h : r.vars.map σ = r.vars.map τ) (ht : r.Touches keys σ) :
    r.Touches keys τ := by
  obtain ⟨l, hl, hgen, k, hk, hp, ha⟩ := ht
  have hargs := instanceArgs_of_map_eq h (mem_clause_of_mem_query hl)
  exact ⟨l, hl, hgen, k, hk, hp, ha.trans hargs⟩

theorem mem_stagedQueries {predicates : List Predicate} {q : Query} :
    q ∈ r.stagedQueries predicates ↔ ∃ i l, r.query[i]? = some l ∧
      l.atom.predicate ∈ predicates ∧ q = r.groundingQuery.target i := by
  rw [stagedQueries, List.mem_map]
  simp only [List.mem_filter, decide_eq_true_eq, Prod.exists]
  constructor
  · rintro ⟨i, l, ⟨hmem, hp⟩, rfl⟩
    obtain ⟨j, hj⟩ := List.mem_iff_getElem?.mp hmem
    obtain ⟨hr, hl⟩ := List.getElem?_zip_eq_some.mp hj
    obtain ⟨_, rfl⟩ := List.getElem?_eq_some_iff.mp hr
    exact ⟨_, l, by simpa using hl, hp, rfl⟩
  · rintro ⟨i, l, hl, hp, rfl⟩
    have hi : i < r.query.length := (List.getElem?_eq_some_iff.mp hl).1
    exact ⟨i, l, ⟨List.mem_of_getElem?
      (List.getElem?_zip_eq_some.mpr ⟨List.getElem?_range hi, hl⟩), hp⟩, rfl⟩

/-- With a literal as lazy target the body is satisfied if besides the instance of that literal lies
in the lazy partition. -/
theorem satisfiedBy_target {i : Nat} {l : Literal} (hi : r.query[i]? = some l) :
    (r.groundingQuery.target i).SatisfiedBy s σ ↔ r.SatisfiedBy s σ ∧
      ∃ stored, s.Holds l.atom.predicate (l.atom.instanceArgs σ) stored ∧
        stored.partition = s.layout.lazy := by
  constructor
  · exact fun hq => ⟨hq.literals, hq.target i l rfl hi⟩
  · rintro ⟨hs, hlazy⟩
    refine ⟨Valuation.extends_empty σ, hs, fun j l' hj hl' => ?_⟩
    have he : l' = l := by
      rw [← Option.some.inj hj] at hl'
      exact Option.some.inj (hl'.symm.trans hi)
    rwa [he]

/-- After a commit into an empty lazy partition the staged atoms are those of the commit. -/
theorem involvesStaged_iff_touches (h : s.Stages s' keys) (hempty : s.LazyEmpty) :
    r.InvolvesStaged s' σ ↔ r.Touches keys σ := by
  refine exists_congr fun l => and_congr_right fun _ => and_congr_right fun _ => ?_
  constructor
  · rintro ⟨stored, ⟨k, hp, ha, hk⟩, hlazy⟩
    exact ⟨k, (h.lazy_iff hempty k).mp ⟨stored, hk, hlazy⟩, hp, ha⟩
  · rintro ⟨k, hk, hp, ha⟩
    obtain ⟨stored, hstored, hlazy⟩ := (h.lazy_iff hempty k).mpr hk
    exact ⟨stored, ⟨k, hp, ha, hstored⟩, hlazy⟩

variable {predicates : List Predicate}

/-- The union of the staged queries has a row for each valuation that satisfies one of them. -/
theorem evaluateUnion_stagedQueries_eq_ok (ha : r.HasArities) {results : ResultList}
    (heval : Query.evaluateUnion s (r.stagedQueries predicates) = .ok results) :
    results.vars = r.vars ∧ results.rows.Nodup ∧ ∀ row, row ∈ results.rows ↔
      ∃ q ∈ r.stagedQueries predicates, ∃ σ, q.SatisfiedBy s σ ∧ row = r.vars.map σ := by
  have hqueries : ∀ q ∈ r.stagedQueries predicates,
      q.HasArities ∧ q.projection = r.vars := by
    intro q hq
    obtain ⟨i, l, -, -, rfl⟩ := mem_stagedQueries.mp hq
    exact ⟨fun l hl => ha l (mem_clause_of_mem_query hl), rfl⟩
  exact Query.evaluateUnion_eq_ok (nodup_distinct _) hqueries heval

/-- If the listed predicates are standard ones and no staged atom is of another predicate, the union
of the staged queries finds the rows that involve a staged atom. -/
theorem mem_rows_stagedQueries (ha : r.HasArities)
    (hstandard : ∀ p ∈ predicates, p.isStandard = true)
    (hstaged : ∀ k stored, s.get? k = some stored → stored.partition = s.layout.lazy →
      k.predicate ∈ predicates) {results : ResultList}
    (heval : Query.evaluateUnion s (r.stagedQueries predicates) = .ok results) :
    results.vars = r.vars ∧ results.rows.Nodup ∧ ∀ row, row ∈ results.rows ↔
      ∃ σ, r.SatisfiedBy s σ ∧ r.InvolvesStaged s σ ∧ row = r.vars.map σ := by
  obtain ⟨hvars, hnodup, hmem⟩ := evaluateUnion_stagedQueries_eq_ok ha heval
  refine ⟨hvars, hnodup, fun row => (hmem row).trans ⟨?_, ?_⟩⟩
  · rintro ⟨q, hq, σ, hσ, rfl⟩
    obtain ⟨i, l, hi, hp, rfl⟩ := mem_stagedQueries.mp hq
    obtain ⟨hs, hlazy⟩ := (satisfiedBy_target hi).mp hσ
    have hl : l ∈ r.query := List.mem_of_getElem? hi
    have hgen : l.generates = true := by
      rw [Literal.generates, negated_of_mem_query hl, hstandard _ hp]
      rfl
    exact ⟨σ, hs, ⟨l, hl, hgen, hlazy⟩, rfl⟩
  · rintro ⟨σ, hs, ⟨l, hl, -, stored, hholds, hlazy⟩, rfl⟩
    obtain ⟨i, hi⟩ := List.mem_iff_getElem?.mp hl
    have hlisted : l.atom.predicate ∈ predicates := by
      obtain ⟨k, hp, -, hk⟩ := hholds
      exact hp ▸ hstaged k stored hk hlazy
    exact ⟨_, mem_stagedQueries.mpr ⟨i, l, hi, hlisted, rfl⟩, σ,
      (satisfiedBy_target hi).mpr ⟨hs, stored, hholds, hlazy⟩, rfl⟩

/-- The rows that are answers over a later store only. -/
def newRows (r : LogicalRule) (s s' : Store) : List Row :=
  (r.groundingQuery.answers s').rows.filter fun row =>
    !(r.groundingQuery.answers s).rows.contains row

theorem nodup_newRows (r : LogicalRule) (s s' : Store) : (r.newRows s s').Nodup :=
  (Query.nodup_answers _ _).filter _

/-- The new rows are those that involve a staged atom. -/
theorem mem_newRows (ha : r.HasArities) (hquery : r.groundingQuery.fault? = none)
    (h : s.Stages s' keys) {row : Row} : row ∈ r.newRows s s' ↔
      ∃ σ, r.SatisfiedBy s' σ ∧ r.Touches keys σ ∧ row = r.vars.map σ := by
  rw [newRows, List.mem_filter, List.contains_eq_mem, Bool.not_eq_true', decide_eq_false_iff_not,
    mem_rows_groundingQuery ha hquery, mem_rows_groundingQuery ha hquery]
  constructor
  · rintro ⟨⟨σ, hσ, rfl⟩, hnew⟩
    by_cases ht : r.Touches keys σ
    · exact ⟨σ, hσ, ht, rfl⟩
    · exact absurd ⟨σ, (satisfiedBy_iff_of_stages h).mpr ⟨hσ, ht⟩, rfl⟩ hnew
  · rintro ⟨σ, hσ, ht, rfl⟩
    refine ⟨⟨σ, hσ, rfl⟩, fun ⟨τ, hτ, he⟩ => ?_⟩
    exact ((satisfiedBy_iff_of_stages h).mp hτ).2 (touches_congr he ht)

/-- After staging the answers are the earlier ones and the new ones. -/
theorem answers_perm (ha : r.HasArities) (hquery : r.groundingQuery.fault? = none)
    (h : s.Stages s' keys) : (r.groundingQuery.answers s').rows.Perm
      ((r.groundingQuery.answers s).rows ++ r.newRows s s') := by
  have hnodup : ((r.groundingQuery.answers s).rows ++ r.newRows s s').Nodup := by
    rw [List.nodup_append]
    refine ⟨Query.nodup_answers _ _, nodup_newRows r s s', ?_⟩
    rintro row hrow row' hrow' rfl
    have hnew := (List.mem_filter.mp hrow').2
    rw [List.contains_eq_mem, Bool.not_eq_true', decide_eq_false_iff_not] at hnew
    exact hnew hrow
  rw [List.perm_ext_iff_of_nodup (Query.nodup_answers _ _) hnodup]
  intro row
  rw [List.mem_append, mem_newRows ha hquery h, mem_rows_groundingQuery ha hquery,
    mem_rows_groundingQuery ha hquery]
  constructor
  · rintro ⟨σ, hσ, rfl⟩
    by_cases ht : r.Touches keys σ
    · exact .inr ⟨σ, hσ, ht, rfl⟩
    · exact .inl ⟨σ, (satisfiedBy_iff_of_stages h).mpr ⟨hσ, ht⟩, rfl⟩
  · rintro (⟨σ, hσ, rfl⟩ | ⟨σ, hσ, -, rfl⟩)
    · exact ⟨σ, ((satisfiedBy_iff_of_stages h).mp hσ).1, rfl⟩
    · exact ⟨σ, hσ, rfl⟩

/-- Without a body literal over a staged predicate there are no new rows. -/
theorem newRows_eq_nil (ha : r.HasArities) (hquery : r.groundingQuery.fault? = none)
    (h : s.Stages s' keys)
    (hnone : ∀ p ∈ r.queryPredicates, p ∉ keys.map GroundKey.predicate) :
    r.newRows s s' = [] := by
  refine List.eq_nil_iff_forall_not_mem.mpr fun row hrow => ?_
  obtain ⟨σ, -, ⟨l, hl, hgen, k, hk, hp, -⟩, -⟩ := (mem_newRows ha hquery h).mp hrow
  exact hnone _ (mem_queryPredicates.mpr ⟨l, hl, hgen, rfl⟩) (List.mem_map.mpr ⟨k, hk, hp⟩)

/-- Grounding a rule for staged atoms that succeeds accepts the new rows and produces their
outlines, in some order. -/
theorem emits_of_groundStaged (ha : r.HasArities) (hquery : r.groundingQuery.fault? = none)
    (h : s.Stages s' keys) (hempty : s.LazyEmpty)
    (hpredicates : ∀ p, p ∈ predicates ↔ p ∈ keys.map GroundKey.predicate) {w w' : Workspace}
    (hw : w.manager.Computes) {n : Nat}
    (hrun : r.groundStaged s' predicates w = (.ok n, w')) :
    (∀ row ∈ r.newRows s s', r.Accepts row) ∧ ∃ outlines, w.Emits w' outlines ∧
      outlines.Perm ((r.newRows s s').flatMap r.outlines) := by
  rcases groundStaged_cases hrun with ⟨-, he | ⟨fault, he⟩⟩ |
    ⟨results, ground, heval, hrows, hresult⟩
  · cases he
  · cases he
  · rw [mapError_eq_ok_iff.mp hresult.symm] at hrows
    have hstandard : ∀ p ∈ predicates, p.isStandard = true := by
      intro p hp
      obtain ⟨k, hk, rfl⟩ := List.mem_map.mp ((hpredicates p).mp hp)
      exact h.standard k hk
    have hlisted : ∀ k stored, s'.get? k = some stored → stored.partition = s'.layout.lazy →
        k.predicate ∈ predicates := by
      intro k stored hk hlazy
      have hmem : k ∈ keys := (h.lazy_iff hempty k).mp ⟨stored, hk, hlazy⟩
      exact (hpredicates _).mpr (List.mem_map.mpr ⟨k, hmem, rfl⟩)
    obtain ⟨hvars, hnodup, hmem⟩ := mem_rows_stagedQueries ha hstandard hlisted heval
    have hperm : results.rows.Perm (r.newRows s s') := by
      rw [List.perm_ext_iff_of_nodup hnodup (nodup_newRows r s s')]
      intro row
      simp only [hmem row, mem_newRows ha hquery h, involvesStaged_iff_touches h hempty]
    rw [groundResults, ResultList.assignments, hvars] at hrows
    obtain ⟨haccepts, hemits⟩ := r.emits_of_groundRows hw hrows
    exact ⟨fun row hrow => haccepts row (hperm.mem_iff.mpr hrow), _, hemits,
      hperm.flatMap_right _⟩

end LogicalRule

end RuleGrounding
