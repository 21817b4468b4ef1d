import RuleGrounding.Proofs.Grounding.Deferring

/-!
# What regrounding covers

A rule is regrounded for staged atoms with the rows of a union of queries, one for each
body literal of a listed predicate. If the list leaves out no staged atom, these rows are
the groundings that involve a staged atom, each of them once however many it involves.
-/

namespace RuleGrounding

namespace LogicalRule

variable {name : String} {f : Formula} {weight : Option Float} {r : LogicalRule} {s : Store}
  {σ τ : Valuation} {predicates : List Predicate}

/-- Whether the body involves a staged atom can be read off the row. -/
theorem involvesStaged_of_map_eq (h : r.vars.map σ = r.vars.map τ) (hτ : r.InvolvesStaged s τ) :
    r.InvolvesStaged s σ := by
  obtain ⟨l, hl, hgenerates, stored, hstored, hlazy⟩ := hτ
  refine ⟨l, hl, hgenerates, stored, ?_, hlazy⟩
  rwa [instanceArgs_of_map_eq h (mem_clause_of_mem_query hl)]

/-- A rule whose body has a literal of a listed standard predicate has a union of staged queries. -/
theorem exists_evaluateUnion_stagedQueries (hr : make name f weight = .ok r) (s : Store)
    (hstandard : ∀ p ∈ predicates, p.isStandard = true)
    (hbody : ∃ l ∈ r.query, l.atom.predicate ∈ predicates) :
    ∃ results, Query.evaluateUnion s (r.stagedQueries predicates) = .ok results := by
  apply Query.exists_evaluateUnion
  · obtain ⟨l, hl, hp⟩ := hbody
    obtain ⟨i, hi⟩ := List.mem_iff_getElem?.mp hl
    exact List.ne_nil_of_mem (mem_stagedQueries.mpr ⟨i, l, hi, hp, rfl⟩)
  · intro q hq
    obtain ⟨i, l, hi, hp, rfl⟩ := mem_stagedQueries.mp hq
    refine Query.fault?_target (fault?_groundingQuery hr) hi ?_
    rw [Literal.generates, negated_of_mem_query (List.mem_of_getElem? hi), hstandard _ hp]
    rfl

/-- Then the rule is regrounded with the rows of this union. -/
theorem groundStaged_eq_groundResults {results : ResultList}
    (h : Query.evaluateUnion s (r.stagedQueries predicates) = .ok results) (w : Workspace) :
    r.groundStaged s predicates w =
      (((r.groundResults s results).runOn w).1.mapError .grounding,
        ((r.groundResults s results).runOn w).2) := by
  have hsome : (r.stagedQueries predicates).isEmpty = false := by
    cases hqueries : r.stagedQueries predicates with
    | nil =>
      rw [hqueries] at h
      cases h
    | cons q qs => rfl
  rw [groundStaged, hsome, h]
  rfl

/-- Let the lazy partition of a store hold any atoms, and let a list of standard predicates have
the predicates of all of them. An accepted rule with a body literal of a listed predicate is then
regrounded with rows that are pairwise distinct and each come from a valuation. The row of a
valuation is among them exactly if the valuation satisfies the body and makes some positive
standard literal of it an atom of the lazy partition. -/
theorem groundStaged_covers_staged_groundings (hr : make name f weight = .ok r)
    (ha : ∀ a ∈ f.occurrences, a.HasArity) (hstandard : ∀ p ∈ predicates, p.isStandard = true)
    (hstaged : ∀ k stored, s.get? k = some stored → stored.partition = s.layout.lazy →
      k.predicate ∈ predicates)
    (hbody : ∃ l ∈ r.query, l.atom.predicate ∈ predicates) :
    ∃ results, Query.evaluateUnion s (r.stagedQueries predicates) = .ok results ∧
      (∀ w, r.groundStaged s predicates w =
        (((r.groundResults s results).runOn w).1.mapError .grounding,
          ((r.groundResults s results).runOn w).2)) ∧
      results.vars = r.vars ∧ results.rows.Nodup ∧
      (∀ row ∈ results.rows, ∃ σ : Valuation, row = r.vars.map σ) ∧
      ∀ σ : Valuation, r.vars.map σ ∈ results.rows ↔ r.SatisfiedBy s σ ∧ r.InvolvesStaged s σ := by
  obtain ⟨results, heval⟩ := exists_evaluateUnion_stagedQueries hr s hstandard hbody
  obtain ⟨hvars, hnodup, hmem⟩ :=
    mem_rows_stagedQueries (hasArities_of_make hr ha) hstandard hstaged heval
  refine ⟨results, heval, groundStaged_eq_groundResults heval, hvars, hnodup,
    fun row hrow => ?_, fun σ => ⟨fun hrow => ?_, fun ⟨hs, hi⟩ => (hmem _).mpr ⟨σ, hs, hi, rfl⟩⟩⟩
  · obtain ⟨σ, -, -, hσ⟩ := (hmem row).mp hrow
    exact ⟨σ, hσ⟩
  · obtain ⟨τ, hs, hi, he⟩ := (hmem _).mp hrow
    exact ⟨satisfiedBy_of_map_eq he hs, involvesStaged_of_map_eq he hi⟩

/-- Who can reach whom. -/
def reachesRelation : Predicate := .standard "Reaches" [.integer, .integer]

/-- That one place reaches another. -/
def reachKey (a b : Int) : GroundKey := ⟨reachesRelation, [.integer a, .integer b], rfl⟩

/-- That the place of one variable reaches that of another. -/
def reachAtom (a b : String) : Atom := ⟨reachesRelation, [.var ⟨a⟩, .var ⟨b⟩]⟩

/-- A place that is reached from a place that is reached can be reached. -/
def reachFormula : Formula :=
  .implies (.conjunction [.atom (reachAtom "A" "B"), .atom (reachAtom "B" "C")])
    (.atom (reachAtom "A" "C"))

/-- The rule of this formula, whose body reads the relation twice. -/
def reachRule : LogicalRule where
  name := "reach"
  formula := reachFormula
  clause := [.positive (reachAtom "A" "B"), .positive (reachAtom "B" "C"),
    .negative (reachAtom "A" "C")]
  weight := none

/-- The first place is known to reach itself, and that two places reach each other is staged. -/
def reachStore : Store where
  rows := .ofList [(reachKey 1 1, ⟨1.0, ⟨0⟩⟩), (reachKey 1 2, ⟨0.5, ⟨2⟩⟩),
    (reachKey 2 1, ⟨0.5, ⟨2⟩⟩)]
  layout := ⟨[⟨0⟩], ⟨1⟩, ⟨2⟩⟩
  defaultValue := 0.0

private theorem eq_of_mem_query_reachRule {l : Literal} (hl : l ∈ reachRule.query) :
    l = .positive (reachAtom "A" "B") ∨ l = .positive (reachAtom "B" "C") := by
  simpa [query, reachRule, Literal.positive, Literal.negative] using hl

/-- The rule is regrounded for the way to the second place and back, on which both atoms are staged,
and not for the known way alone. -/
theorem reachRule_covers_both_ways :
    make "reach" reachFormula none = .ok reachRule ∧
      (∀ a ∈ reachFormula.occurrences, a.HasArity) ∧
      (∀ p ∈ [reachesRelation], p.isStandard = true) ∧
      (∀ k stored, reachStore.get? k = some stored →
        stored.partition = reachStore.layout.lazy → k.predicate ∈ [reachesRelation]) ∧
      (∃ l ∈ reachRule.query, l.atom.predicate ∈ [reachesRelation]) ∧
      ∃ results, Query.evaluateUnion reachStore (reachRule.stagedQueries [reachesRelation]) =
          .ok results ∧ results.rows.Nodup ∧
        [.integer 1, .integer 2, .integer 1] ∈ results.rows ∧
        [.integer 1, .integer 1, .integer 1] ∉ results.rows := by
  have hmake : make "reach" reachFormula none = .ok reachRule := rfl
  have harities : ∀ a ∈ reachFormula.occurrences, a.HasArity := by decide
  have hstandard : ∀ p ∈ [reachesRelation], p.isStandard = true := by decide
  have hstaged : ∀ k stored, reachStore.get? k = some stored →
      stored.partition = reachStore.layout.lazy → k.predicate ∈ [reachesRelation] := by
    intro k stored hk _
    obtain ⟨hfind, -⟩ := Store.get?_eq_some_iff.mp hk
    have hmem : (k, stored) ∈ reachStore.rows.entries := FiniteMap.find?_eq_some_iff.mp hfind
    have hpredicates : ∀ e ∈ reachStore.rows.entries, e.1.predicate = reachesRelation := by
      decide
    exact List.mem_singleton.mpr (hpredicates _ hmem)
  have hbody : ∃ l ∈ reachRule.query, l.atom.predicate ∈ [reachesRelation] := by decide
  obtain ⟨results, heval, -, -, hnodup, -, hrows⟩ :=
    groundStaged_covers_staged_groundings hmake harities hstandard hstaged hbody
  refine ⟨hmake, harities, hstandard, hstaged, hbody, results, heval, hnodup, ?_, fun hrow => ?_⟩
  · let σ : Valuation := fun v => if v = ⟨"B"⟩ then .integer 2 else .integer 1
    have hthere : reachStore.Holds reachesRelation [.integer 1, .integer 2] ⟨0.5, ⟨2⟩⟩ :=
      ⟨reachKey 1 2, rfl, rfl, rfl⟩
    have hback : reachStore.Holds reachesRelation [.integer 2, .integer 1] ⟨0.5, ⟨2⟩⟩ :=
      ⟨reachKey 2 1, rfl, rfl, rfl⟩
    have hbodies : reachRule.SatisfiedBy reachStore σ := by
      intro l hl
      rcases eq_of_mem_query_reachRule hl with rfl | rfl
      · exact (Query.holdsIn_of_generates rfl).mpr ⟨_, hthere⟩
      · exact (Query.holdsIn_of_generates rfl).mpr ⟨_, hback⟩
    exact (hrows σ).mpr ⟨hbodies, .positive (reachAtom "A" "B"), by decide, rfl, _, hthere, rfl⟩
  · let σ : Valuation := fun _ => .integer 1
    have hknown : reachStore.Holds reachesRelation [.integer 1, .integer 1] ⟨1.0, ⟨0⟩⟩ :=
      ⟨reachKey 1 1, rfl, rfl, rfl⟩
    obtain ⟨-, l, hl, -, stored, hstored, hlazy⟩ := (hrows σ).mp hrow
    have hinstance : l.atom.predicate = reachesRelation ∧
        l.atom.instanceArgs σ = [.integer 1, .integer 1] := by
      rcases eq_of_mem_query_reachRule hl with rfl | rfl <;> exact ⟨rfl, rfl⟩
    rw [hinstance.1, hinstance.2] at hstored
    rw [hstored.unique hknown] at hlazy
    cases hlazy

end LogicalRule

end RuleGrounding
