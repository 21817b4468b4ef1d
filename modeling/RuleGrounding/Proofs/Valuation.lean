import RuleGrounding.Atom

/-!
# Valuations

A valuation gives every variable a constant. It is the declarative counterpart of
the assignments that a join builds up: an assignment binds some variables, and a
valuation extends it if both agree on these.
-/

namespace RuleGrounding

/-- A constant for every variable. -/
abbrev Valuation := Variable → Constant

/-- A valuation agrees with an assignment on every variable that the assignment binds. -/
def Valuation.Extends (σ : Valuation) (θ : Assignment) : Prop :=
  ∀ v c, θ.find? v = some c → σ v = c

/-- The valuation of an assignment; a variable without constant gets an arbitrary one. -/
def Valuation.ofAssignment (θ : Assignment) : Valuation :=
  fun v => (θ.find? v).getD (.integer 0)

/-- The constant that a term stands for under a valuation. -/
def Term.eval (σ : Valuation) : Term → Constant
  | .var v => σ v
  | .const c => c

/-- The constant arguments of an atom under a valuation. -/
def Atom.instanceArgs (a : Atom) (σ : Valuation) : List Constant := a.args.map (Term.eval σ)

/-- An atom has as many arguments as its predicate declares. -/
def Atom.HasArity (a : Atom) : Prop := a.args.length = a.predicate.arity

instance (a : Atom) : Decidable a.HasArity :=
  inferInstanceAs (Decidable (a.args.length = a.predicate.arity))

namespace Valuation

/-- The valuation of an assignment extends it. -/
theorem ofAssignment_extends (θ : Assignment) : (ofAssignment θ).Extends θ := by
  intro v c h
  rw [ofAssignment, h, Option.getD_some]

/-- Every valuation extends the assignment that binds nothing. -/
theorem extends_empty (σ : Valuation) : σ.Extends ∅ := by
  intro v c h
  rw [FiniteMap.find?_empty] at h
  cases h

/-- Binding one more variable asks for one more equation. -/
theorem extends_insert {σ : Valuation} {θ : Assignment} {v : Variable} {c : Constant}
    (hv : θ.find? v = none) : σ.Extends (θ.insert v c) ↔ σ.Extends θ ∧ σ v = c := by
  constructor
  · intro h
    refine ⟨fun u d hu => ?_, h v c (by rw [FiniteMap.find?_insert, if_pos rfl])⟩
    have hne : u ≠ v := by
      rintro rfl
      rw [hv] at hu
      cases hu
    exact h u d (by rw [FiniteMap.find?_insert, if_neg hne, hu])
  · rintro ⟨h, hc⟩ u d hu
    rw [FiniteMap.find?_insert] at hu
    split at hu
    · rename_i he
      rw [he, hc]
      exact Option.some.inj hu
    · exact h u d hu

/-- Where the assignment binds a variable, a valuation that extends it has that constant. -/
theorem Extends.find?_eq {σ : Valuation} {θ : Assignment} (h : σ.Extends θ) {v : Variable}
    (hv : v ∈ θ.keys) : θ.find? v = some (σ v) := by
  obtain ⟨c, hc⟩ := FiniteMap.mem_keys_iff.mp hv
  rw [hc, h v c hc]

end Valuation

namespace Atom

/-- An atom that is built has the declared number of arguments. -/
theorem hasArity_of_make {p : Predicate} {args : List Term} {a : Atom}
    (h : Atom.make p args = .ok a) : a.HasArity := by
  unfold Atom.make at h
  split at h
  · cases h
  · rename_i hnone
    cases h
    rw [Predicate.fault?, Predicate.arityFault?] at hnone
    split at hnone
    · rename_i hlen
      simpa [HasArity] using hlen.symm
    · cases hnone

theorem mem_vars {a : Atom} {v : Variable} : v ∈ a.vars ↔ .var v ∈ a.args := by
  rw [vars, mem_distinct, List.mem_filterMap]
  constructor
  · rintro ⟨t, ht, hv⟩
    cases t with
    | var u => cases hv; exact ht
    | const c => cases hv
  · exact fun h => ⟨_, h, rfl⟩

/-- Valuations that agree on the variables of an atom give the same instance. -/
theorem instanceArgs_congr {a : Atom} {σ τ : Valuation} (h : ∀ v ∈ a.vars, σ v = τ v) :
    a.instanceArgs σ = a.instanceArgs τ := by
  refine List.map_congr_left fun t ht => ?_
  cases t with
  | var v => exact h v (mem_vars.mpr ht)
  | const c => rfl

private theorem instantiate_eq_ok {σ : Valuation} {θ : Assignment} (h : σ.Extends θ)
    {ts : List Term} (hts : ∀ v, .var v ∈ ts → v ∈ θ.keys) :
    instantiate θ ts = .ok (ts.map (Term.eval σ)) := by
  induction ts with
  | nil => rfl
  | cons t ts ih =>
    have hrest := ih fun v hv => hts v (List.mem_cons_of_mem t hv)
    cases t with
    | const c => rw [instantiate, hrest]; rfl
    | var v =>
      rw [instantiate, h.find?_eq (hts v List.mem_cons_self), hrest]
      rfl

/-- An atom whose variables are all bound is instantiated as every extending valuation says. -/
theorem groundArgs_eq_ok {a : Atom} {σ : Valuation} {θ : Assignment} (h : σ.Extends θ)
    (hv : ∀ v ∈ a.vars, v ∈ θ.keys) : a.groundArgs θ = .ok (a.instanceArgs σ) :=
  instantiate_eq_ok h fun v hv' => hv v (mem_vars.mpr hv')

private theorem eq_of_instantiate {σ : Valuation} {θ : Assignment} (h : σ.Extends θ)
    {ts : List Term} {args : List Constant} (hts : instantiate θ ts = .ok args) :
    args = ts.map (Term.eval σ) := by
  induction ts generalizing args with
  | nil => exact (Except.ok.inj hts).symm
  | cons t ts ih =>
    have hcons : ∀ c, (instantiate θ ts).map (c :: ·) = .ok args →
        args = c :: ts.map (Term.eval σ) := by
      intro c hc
      cases hrest : instantiate θ ts with
      | error v =>
        rw [hrest] at hc
        cases hc
      | ok rest =>
        rw [hrest] at hc
        rw [← ih hrest]
        exact (Except.ok.inj hc).symm
    cases t with
    | const c => exact hcons c hts
    | var v =>
      rw [instantiate] at hts
      split at hts
      · rename_i c hv
        rw [List.map_cons, Term.eval, h v c hv]
        exact hcons c hts
      · cases hts

/-- The arguments of an atom under an assignment are those under every extending valuation. -/
theorem eq_instanceArgs_of_groundArgs {a : Atom} {σ : Valuation} {θ : Assignment}
    (h : σ.Extends θ) {args : List Constant} (hargs : a.groundArgs θ = .ok args) :
    args = a.instanceArgs σ :=
  eq_of_instantiate h hargs

end Atom

end RuleGrounding
