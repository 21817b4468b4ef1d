import Mathlib.Data.List.Forall2
import RuleGrounding.Proofs.Valuation

/-!
# Argument types

Constants fit a predicate if there are as many as it declares and each is of the declared
type. An atom keeps its types under a valuation if its own constants do and each of its
variables has a constant of the types that it stands for.
-/

namespace RuleGrounding

namespace Predicate

variable {p : Predicate}

/-- The constants are as many as declared, and each is of the declared type. -/
def Accepts (p : Predicate) (args : List Constant) : Prop :=
  List.Forall₂ (fun t c => t.accepts c = true) p.argTypes args

/-- The first ill-typed argument is at fault. -/
theorem exists_of_typeFault? {position : Nat} {args : List (Option Constant)}
    {types : List ArgumentType} {fault : ModelFault}
    (h : p.typeFault? position args types = some fault) :
    ∃ i t c, types[i]? = some t ∧ args[i]? = some (some c) ∧ t.accepts c = false ∧
      fault = .argumentType p.name (position + i) t.name c.toText := by
  induction args generalizing position types with
  | nil => cases h
  | cons arg args ih =>
    cases types with
    | nil => cases arg <;> cases h
    | cons t types =>
      have hlater : p.typeFault? (position + 1) args types = some fault →
          ∃ i u c, (t :: types)[i]? = some u ∧ (arg :: args)[i]? = some (some c) ∧
            u.accepts c = false ∧
            fault = .argumentType p.name (position + i) u.name c.toText := by
        intro h
        obtain ⟨i, u, c, hu, hc, hill, rfl⟩ := ih h
        exact ⟨i + 1, u, c, hu, hc, hill, by rw [Nat.add_right_comm, Nat.add_assoc]⟩
      cases arg with
      | none => exact hlater h
      | some c =>
        rw [typeFault?] at h
        split at h
        · exact hlater h
        · rename_i hill
          exact ⟨0, t, c, rfl, rfl, Bool.eq_false_iff.mpr hill, (Option.some.inj h).symm⟩

/-- No argument is at fault if the constants among them are well typed. -/
theorem typeFault?_eq_none_iff {position : Nat} {args : List (Option Constant)}
    {types : List ArgumentType} (hlen : types.length = args.length) :
    p.typeFault? position args types = none ↔
      List.Forall₂ (fun t arg => ∀ c, arg = some c → t.accepts c = true) types args := by
  induction args generalizing position types with
  | nil =>
    obtain rfl := List.length_eq_zero_iff.mp hlen
    exact iff_of_true rfl .nil
  | cons arg args ih =>
    cases types with
    | nil => cases hlen
    | cons t types =>
      have hrest := @ih (position + 1) types (Nat.succ.inj hlen)
      rw [List.forall₂_cons]
      cases arg with
      | none =>
        rw [typeFault?, hrest]
        exact ⟨fun h => ⟨fun c hc => (by cases hc), h⟩, fun h => h.2⟩
      | some c =>
        rw [typeFault?]
        by_cases hc : t.accepts c = true
        · rw [if_pos hc, hrest]
          exact ⟨fun h => ⟨fun d hd => Option.some.inj hd ▸ hc, h⟩, fun h => h.2⟩
        · rw [if_neg hc]
          exact iff_of_false (fun h => by cases h) fun h => hc (h.1 c rfl)

/-- Arguments are refused unless they are as many as declared and the constants among them are
well typed. -/
theorem fault?_eq_none_iff {args : List (Option Constant)} : p.fault? args = none ↔
    List.Forall₂ (fun t arg => ∀ c, arg = some c → t.accepts c = true) p.argTypes args := by
  rw [fault?, arityFault?]
  by_cases hlen : p.arity = args.length
  · rw [if_pos hlen]
    exact typeFault?_eq_none_iff hlen
  · rw [if_neg hlen]
    exact iff_of_false (fun h => by cases h) fun h => hlen h.length_eq

/-- Constants are refused unless they fit the predicate. -/
theorem fault?_constants_eq_none_iff {args : List Constant} :
    p.fault? (args.map some) = none ↔ p.Accepts args := by
  rw [fault?_eq_none_iff, List.forall₂_map_right_iff, Accepts]
  constructor
  · exact fun h => h.imp fun t c hc => hc c rfl
  · exact fun h => h.imp fun t c hc d hd => Option.some.inj hd ▸ hc

end Predicate

namespace GroundKey

variable {p : Predicate} {args : List Constant}

/-- The constants of a key fit its predicate. -/
theorem accepts (k : GroundKey) : k.predicate.Accepts k.args :=
  Predicate.fault?_constants_eq_none_iff.mp k.fits

/-- There is a key of a predicate with the constants that it accepts. -/
theorem exists_make_eq_ok (h : p.Accepts args) : ∃ k, make p args = .ok k := by
  rw [make]
  split
  · rename_i fault hfault
    rw [Predicate.fault?_constants_eq_none_iff.mpr h] at hfault
    cases hfault
  · exact ⟨_, rfl⟩

/-- As many constants as declared are refused only for one that is ill typed. -/
theorem exists_of_make_eq_error {fault : ModelFault} (hlen : args.length = p.arity)
    (h : make p args = .error fault) :
    ∃ i t c, p.argTypes[i]? = some t ∧ args[i]? = some c ∧ t.accepts c = false ∧
      fault = .argumentType p.name i t.name c.toText := by
  rw [make] at h
  split at h
  · rename_i hfault
    cases h
    rw [Predicate.fault?, Predicate.arityFault?, List.length_map, if_pos hlen.symm] at hfault
    obtain ⟨i, t, c, ht, hc, hill, rfl⟩ := Predicate.exists_of_typeFault? hfault
    rw [List.getElem?_map, Option.map_eq_some_iff] at hc
    obtain ⟨d, hd, hc⟩ := hc
    rw [Option.some.inj hc] at hd
    exact ⟨i, t, c, ht, hd, hill, by rw [Nat.zero_add]⟩
  · cases h

end GroundKey

namespace Atom

variable {a : Atom} {σ : Valuation}

/-- A variable stands for an argument that is declared with the type. -/
def Puts (a : Atom) (v : Variable) (t : ArgumentType) : Prop :=
  (t, .var v) ∈ a.predicate.argTypes.zip a.args

/-- In the atoms no variable stands for arguments of two types. -/
def TypesAgree (atoms : List Atom) : Prop :=
  ∀ a ∈ atoms, ∀ b ∈ atoms, ∀ v t u, a.Puts v t → b.Puts v u → t = u

/-- The constants among the arguments of a checked atom are well typed. -/
theorem forall₂_of_make (ha : make a.predicate a.args = .ok a) :
    List.Forall₂ (fun t term => ∀ c, Term.constant? term = some c → t.accepts c = true)
      a.predicate.argTypes a.args := by
  rw [make] at ha
  split at ha
  · cases ha
  · rename_i hnone
    rwa [Predicate.fault?_eq_none_iff, List.forall₂_map_right_iff] at hnone

/-- A checked atom has instances that fit its predicate, if its variables have constants of the
types that they stand for. -/
theorem accepts_instanceArgs (ha : make a.predicate a.args = .ok a)
    (hσ : ∀ v t, a.Puts v t → t.accepts (σ v) = true) :
    a.predicate.Accepts (a.instanceArgs σ) := by
  have hchecked := List.forall₂_iff_zip.mp (forall₂_of_make ha)
  rw [Predicate.Accepts, instanceArgs, List.forall₂_map_right_iff, List.forall₂_iff_zip]
  refine ⟨hchecked.1, fun {t term} hmem => ?_⟩
  cases term with
  | const c => exact hchecked.2 hmem c rfl
  | var v => exact hσ v t hmem

/-- If an instance fits the predicate, the variables of the atom have constants of the types that
they stand for. -/
theorem accepts_of_puts (h : a.predicate.Accepts (a.instanceArgs σ)) {v : Variable}
    {t : ArgumentType} (hv : a.Puts v t) : t.accepts (σ v) = true := by
  rw [Predicate.Accepts, instanceArgs, List.forall₂_map_right_iff, List.forall₂_iff_zip] at h
  exact h.2 hv

/-- Every variable of an atom with the declared number of arguments stands for one of them. -/
theorem exists_puts (ha : a.HasArity) {v : Variable} (hv : v ∈ a.vars) : ∃ t, a.Puts v t := by
  obtain ⟨i, hi, he⟩ := List.mem_iff_getElem.mp (mem_vars.mp hv)
  have htypes : i < a.predicate.argTypes.length := Nat.lt_of_lt_of_eq hi ha
  refine ⟨a.predicate.argTypes[i], List.mem_iff_getElem.mpr ⟨i, ?_, ?_⟩⟩
  · rw [List.length_zip]
    exact Nat.lt_min.mpr ⟨htypes, hi⟩
  · rw [List.getElem_zip, he]

end Atom

end RuleGrounding
