import RuleGrounding.FiniteMap

/-!
# Constants, variables and terms

The leaves of atoms. Constants have a total order, integers before texts, which
statistics, selection sets and query results use.
-/

namespace RuleGrounding

/-- A domain constant, compared by value. -/
inductive Constant where
  /-- An integer. -/
  | integer (value : Int)
  /-- A text. -/
  | text (value : String)
  deriving DecidableEq, Repr

namespace Constant

/-- The order of constants: integers by size, then texts by their characters. -/
def le : Constant → Constant → Bool
  | integer a, integer b => decide (a ≤ b)
  | integer _, text _ => true
  | text _, integer _ => false
  | text a, text b => !decide (b < a)

/-- The strict order of constants. -/
def lt (a b : Constant) : Bool := !b.le a

/-- The constant as it stands in an atom; texts are quoted and not escaped. -/
def toText : Constant → String
  | integer a => toString a
  | text a => "'" ++ a ++ "'"

/-- The name of the constant's type in messages. -/
def typeName : Constant → String
  | integer _ => "integer"
  | text _ => "string"

/-- The order of rows: column by column, and a row before its extensions. -/
def rowLe : List Constant → List Constant → Bool
  | [], _ => true
  | _ :: _, [] => false
  | a :: as, b :: bs => if a = b then rowLe as bs else a.le b

end Constant

/-- A named placeholder, whose scope is one rule. -/
structure Variable where
  /-- The variable's name. -/
  name : String
  deriving DecidableEq, Repr

/-- An argument of an atom: a variable or a constant. -/
inductive Term where
  /-- A variable. -/
  | var (v : Variable)
  /-- A constant. -/
  | const (c : Constant)
  deriving DecidableEq, Repr

namespace Term

/-- The variable that the term is, if it is one. -/
def openVar? : Term → Option Variable
  | .var v => some v
  | .const _ => none

/-- The constant that the term is, if it is one. -/
def constant? : Term → Option Constant
  | .var _ => none
  | .const c => some c

/-- The term as it stands in an atom. -/
def toText : Term → String
  | .var v => v.name
  | .const c => c.toText

end Term

/-- Constants for some variables. -/
abbrev Assignment := FiniteMap Variable Constant

/-- The constant that a term stands for under an assignment. -/
def Term.value? (θ : Assignment) : Term → Option Constant
  | .var v => θ.find? v
  | .const c => some c

/-- The distinct elements of a list in the order of their first occurrence. -/
def distinct {α : Type} [DecidableEq α] (xs : List α) : List α :=
  xs.foldl (fun acc x => if x ∈ acc then acc else acc ++ [x]) []

section Distinct

variable {α : Type} [DecidableEq α]

private theorem mem_foldl_distinct {x : α} (xs acc : List α) :
    x ∈ xs.foldl (fun acc x => if x ∈ acc then acc else acc ++ [x]) acc ↔ x ∈ acc ∨ x ∈ xs := by
  induction xs generalizing acc with
  | nil => simp
  | cons y ys ih =>
    rw [List.foldl_cons, ih]
    by_cases h : y ∈ acc
    · rw [if_pos h, List.mem_cons]
      constructor
      · exact fun hx => hx.imp id .inr
      · rintro (hx | rfl | hx)
        · exact .inl hx
        · exact .inl h
        · exact .inr hx
    · rw [if_neg h, List.mem_append, List.mem_singleton, List.mem_cons, or_assoc]

private theorem nodup_foldl_distinct (xs : List α) {acc : List α} (h : acc.Nodup) :
    (xs.foldl (fun acc x => if x ∈ acc then acc else acc ++ [x]) acc).Nodup := by
  induction xs generalizing acc with
  | nil => exact h
  | cons y ys ih =>
    rw [List.foldl_cons]
    apply ih
    by_cases hy : y ∈ acc
    · rwa [if_pos hy]
    · rw [if_neg hy, List.nodup_append]
      refine ⟨h, by simp, ?_⟩
      rintro a ha b hb rfl
      exact hy (List.mem_singleton.mp hb ▸ ha)

/-- Taking each element once loses no element and adds none. -/
@[simp] theorem mem_distinct {x : α} {xs : List α} : x ∈ distinct xs ↔ x ∈ xs := by
  rw [distinct, mem_foldl_distinct]
  simp

/-- Every element is taken once. -/
theorem nodup_distinct (xs : List α) : (distinct xs).Nodup :=
  nodup_foldl_distinct xs List.nodup_nil

/-- A list without repetition stays as it is. -/
theorem distinct_eq_self {xs : List α} (h : xs.Nodup) : distinct xs = xs := by
  have hfold : ∀ acc ys : List α, (acc ++ ys).Nodup →
      ys.foldl (fun acc x => if x ∈ acc then acc else acc ++ [x]) acc = acc ++ ys := by
    intro acc ys
    induction ys generalizing acc with
    | nil => exact fun _ => (List.append_nil acc).symm
    | cons y ys ih =>
      intro hnodup
      have hy : y ∉ acc := fun hy =>
        (List.nodup_append.mp hnodup).2.2 y hy y List.mem_cons_self rfl
      rw [List.foldl_cons, if_neg hy, ih, List.append_assoc, List.singleton_append]
      rwa [List.append_assoc, List.singleton_append]
  exact hfold [] xs h

end Distinct

end RuleGrounding
