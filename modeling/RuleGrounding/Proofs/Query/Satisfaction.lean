import RuleGrounding.Proofs.Valuation
import RuleGrounding.Query.Evaluation

/-!
# Satisfaction of queries

What a query asks, said without joins: a valuation satisfies a query if it agrees
with the pinned variables and every literal holds under it. A positive standard
literal asks for a stored atom, a positive functional literal for a true relation,
and a negated literal for an atom without positive value.
-/

namespace RuleGrounding

/-- In the partitions of the layout the atom of a predicate with some constants is stored. -/
def Store.Holds (s : Store) (p : Predicate) (args : List Constant) (stored : StoredAtom) : Prop :=
  ∃ k : GroundKey, k.predicate = p ∧ k.args = args ∧ s.get? k = some stored

/-- A literal holds in a store under a valuation. -/
def Literal.HoldsIn (l : Literal) (s : Store) (σ : Valuation) : Prop :=
  match l.negated, l.atom.predicate.kind with
  | false, .standard => ∃ stored, s.Holds l.atom.predicate (l.atom.instanceArgs σ) stored
  | false, .functional builtin => 0.0 < builtin.value (l.atom.instanceArgs σ)
  | true, .standard =>
    ∀ stored, s.Holds l.atom.predicate (l.atom.instanceArgs σ) stored →
      (stored.value == 0.0) = true
  | true, .functional builtin => (builtin.value (l.atom.instanceArgs σ) == 0.0) = true

/-- A valuation satisfies a query. -/
structure Query.SatisfiedBy (q : Query) (s : Store) (σ : Valuation) : Prop where
  /-- It agrees with the pinned variables. -/
  pinned : σ.Extends q.pinned
  /-- Every literal holds. -/
  literals : ∀ l ∈ q.literals, l.HoldsIn s σ
  /-- The atom of the lazy target lies in the lazy partition. -/
  target : ∀ i l, q.lazyTarget? = some i → q.literals[i]? = some l →
    ∃ stored, s.Holds l.atom.predicate (l.atom.instanceArgs σ) stored ∧
      stored.partition = s.layout.lazy

/-- Every atom of the query has the declared number of arguments. -/
def Query.HasArities (q : Query) : Prop := ∀ l ∈ q.literals, l.atom.HasArity

instance (q : Query) : Decidable q.HasArities :=
  inferInstanceAs (Decidable (∀ l ∈ q.literals, l.atom.HasArity))

/-- Without a lazy target a query asks for its pinned variables and its literals. -/
theorem Query.satisfiedBy_iff_of_no_target {q : Query} (h : q.lazyTarget? = none) {s : Store}
    {σ : Valuation} :
    q.SatisfiedBy s σ ↔ σ.Extends q.pinned ∧ ∀ l ∈ q.literals, l.HoldsIn s σ :=
  ⟨fun hq => ⟨hq.pinned, hq.literals⟩, fun hq => ⟨hq.1, hq.2, fun i l hi => by
    rw [h] at hi
    cases hi⟩⟩

namespace GroundKey

theorem ext {k k' : GroundKey} (hp : k.predicate = k'.predicate) (ha : k.args = k'.args) :
    k = k' := by
  obtain ⟨p, args, _⟩ := k
  obtain ⟨p', args', _⟩ := k'
  cases hp
  cases ha
  rfl

/-- A key has as many constants as its predicate declares. -/
theorem length_args (k : GroundKey) : k.args.length = k.predicate.arity := by
  have h := k.fits
  rw [Predicate.fault?, Predicate.arityFault?] at h
  split at h
  · rename_i hlen
    simpa using hlen.symm
  · cases h

end GroundKey

namespace Store

/-- What is stored in the layout is a stored row of one of its partitions. -/
theorem get?_eq_some_iff {s : Store} {k : GroundKey} {stored : StoredAtom} :
    s.get? k = some stored ↔
      s.rows.find? k = some stored ∧ s.layout.contains stored.partition = true := by
  rw [get?, Option.filter_eq_some_iff]

/-- At most one atom is stored for a predicate and constants. -/
theorem Holds.unique {s : Store} {p : Predicate} {args : List Constant} {a b : StoredAtom}
    (ha : s.Holds p args a) (hb : s.Holds p args b) : a = b := by
  obtain ⟨k, hp, hargs, hk⟩ := ha
  obtain ⟨k', hp', hargs', hk'⟩ := hb
  rw [GroundKey.ext (hp.trans hp'.symm) (hargs.trans hargs'.symm), hk'] at hk
  exact (Option.some.inj hk).symm

/-- The value of a standard atom for a filter is the stored one, or zero. -/
theorem filterValue_standard {s : Store} {p : Predicate} (hp : p.kind = .standard)
    (args : List Constant) :
    (∃ stored, s.Holds p args stored ∧ s.filterValue p args = stored.value) ∨
      (∀ stored, ¬ s.Holds p args stored) ∧ s.filterValue p args = 0.0 := by
  rw [filterValue, hp]
  cases hk : GroundKey.make p args with
  | error fault =>
    right
    refine ⟨fun stored ⟨k, hkp, hka, _⟩ => ?_, rfl⟩
    rw [← hkp, ← hka, GroundKey.make_self] at hk
    cases hk
  | ok k =>
    obtain ⟨hkp, hka⟩ := GroundKey.make_eq_ok hk
    cases hg : s.get? k with
    | some stored =>
      left
      exact ⟨stored, ⟨k, hkp, hka, hg⟩, by simp [hg]⟩
    | none =>
      right
      refine ⟨fun stored ⟨k', hp', ha', hk'⟩ => ?_, by simp [hg]⟩
      rw [GroundKey.ext (hp'.trans hkp.symm) (ha'.trans hka.symm), hg] at hk'
      cases hk'

private theorem zero_beq_zero : ((0.0 : Float) == 0.0) = true := by decide

/-- A filter whose variables are bound is decided as the literal holds. -/
theorem filterHolds_iff {s : Store} {l : Literal} (hl : l.generates = false) {σ : Valuation}
    {θ : Assignment} (h : σ.Extends θ) (hv : ∀ v ∈ l.atom.vars, v ∈ θ.keys) :
    s.filterHolds θ l = true ↔ l.HoldsIn s σ := by
  rw [filterHolds, Atom.groundArgs_eq_ok h hv]
  cases hn : l.negated with
  | false =>
    cases hk : l.atom.predicate.kind with
    | standard => simp [Literal.generates, Predicate.isStandard, hn, hk] at hl
    | functional builtin => simp [Literal.HoldsIn, filterValue, hn, hk]
  | true =>
    cases hk : l.atom.predicate.kind with
    | functional builtin => simp [Literal.HoldsIn, filterValue, hn, hk]
    | standard =>
      simp only [Literal.HoldsIn, hn, hk, ite_true]
      rcases s.filterValue_standard hk (l.atom.instanceArgs σ) with ⟨stored, hs, he⟩ | ⟨hs, he⟩
      · rw [he]
        constructor
        · intro hz stored' hs'
          rwa [hs'.unique hs]
        · exact fun hall => hall stored hs
      · rw [he]
        exact iff_of_true zero_beq_zero fun stored hst => absurd hst (hs stored)

private theorem agrees_of_extends {σ : Valuation} {θ : Assignment} (h : σ.Extends θ)
    (terms : List Term) : agrees θ terms (terms.map (Term.eval σ)) = true := by
  induction terms with
  | nil => rfl
  | cons t ts ih =>
    simp only [agrees, List.map_cons, List.zip_cons_cons, List.all_cons, Bool.and_eq_true]
    refine ⟨?_, ih⟩
    cases t with
    | const c => simp [Term.value?, Term.eval]
    | var v =>
      cases hv : θ.find? v with
      | none => simp [Term.value?, hv]
      | some c => simp [Term.value?, Term.eval, hv, h v c hv]

/-- The instance of an atom is among the candidates exactly when it is stored in a partition that
is seen; the filter by pinned variables loses nothing that an extending valuation asks for. -/
theorem mem_candidates {s : Store} {a : Atom} {θ : Assignment} {sees : PartitionId → Bool}
    {σ : Valuation} (h : σ.Extends θ) :
    a.instanceArgs σ ∈ s.candidates a θ sees ↔
      ∃ k stored, k.predicate = a.predicate ∧ k.args = a.instanceArgs σ ∧
        s.rows.find? k = some stored ∧ sees stored.partition = true := by
  rw [candidates, List.mem_mergeSort, List.mem_map]
  constructor
  · rintro ⟨⟨k, stored⟩, he, hargs⟩
    rw [List.mem_filter] at he
    simp only [Bool.and_eq_true, decide_eq_true_eq] at he
    exact ⟨k, stored, he.2.1.1, hargs, FiniteMap.find?_eq_some_iff.mpr he.1, he.2.1.2⟩
  · rintro ⟨k, stored, hp, hargs, hf, hsees⟩
    refine ⟨(k, stored), List.mem_filter.mpr ⟨FiniteMap.find?_eq_some_iff.mp hf, ?_⟩, hargs⟩
    simp only [Bool.and_eq_true, decide_eq_true_eq]
    refine ⟨⟨hp, hsees⟩, ?_⟩
    rw [hargs]
    exact agrees_of_extends h a.args

/-- The candidates are argument lists of the atom's predicate. -/
theorem length_of_mem_candidates {s : Store} {a : Atom} {θ : Assignment}
    {sees : PartitionId → Bool} {row : Row} (h : row ∈ s.candidates a θ sees) :
    row.length = a.predicate.arity := by
  rw [candidates, List.mem_mergeSort, List.mem_map] at h
  obtain ⟨e, he, rfl⟩ := h
  have hp := (List.mem_filter.mp he).2
  simp only [Bool.and_eq_true, decide_eq_true_eq] at hp
  rw [GroundKey.length_args, hp.1.1]

end Store

end RuleGrounding
