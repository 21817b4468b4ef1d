import RuleGrounding.Json

/-!
# Records and tagged values in JSON

A record is written as an object with its fields in order. It is read from an
object, in which fields of other names are passed over and no field may come
twice, or from an array of the field values. A tagged value is an object of one
field, or the tag alone if the value carries nothing.
-/

namespace RuleGrounding

namespace Json

/-- The value of a field that comes at most once. -/
def field? (name : String) (fields : List (String × Json)) : Option Json :=
  (fields.find? fun f => f.1 = name).map Prod.snd

/-- Whether one of the names comes more than once. -/
def repeats (names : List String) (fields : List (String × Json)) : Bool :=
  names.any fun name => decide (1 < (fields.filter fun f => f.1 = name).length)

/-- The values of the named fields of a record; a missing one is `none`. -/
def recordFields? (names : List String) : Json → Option (List (Option Json))
  | object fields =>
    if repeats names fields then none else some (names.map fun name => field? name fields)
  | array items =>
    if items.length ≤ names.length then
      some ((List.range names.length).map fun i => items[i]?)
    else none
  | _ => none

/-- The tag and the content of a tagged value; a tag alone has no content. -/
def tagged? : Json → Option (String × Option Json)
  | string tag => some (tag, none)
  | object [(tag, content)] => some (tag, some content)
  | _ => none

/-- The tag of a value that carries nothing. -/
def bareTag? (j : Json) : Option String :=
  match j.tagged? with
  | some (tag, none) => some tag
  | some (tag, some null) => some tag
  | _ => none

/-- The element of a list that has the tag as its name. -/
def named? {α : Type} (name : α → String) (all : List α) (j : Json) : Option α :=
  j.bareTag?.bind fun tag => all.find? fun a => name a = tag

/-- Read a field, or take the default if it is missing. -/
def readOr {α : Type} (default : α) (read : Json → Option α) : Option Json → Option α
  | none => some default
  | some j => read j

mutual

/-- Whether every number of a value is within the range of floating-point numbers, and arrays and
objects are nested at most to the given depth. -/
def isBounded (depth : Nat) : Json → Bool
  | array items =>
    match depth with
    | 0 => false
    | depth + 1 => itemsBounded depth items
  | object fields =>
    match depth with
    | 0 => false
    | depth + 1 => fieldsBounded depth fields
  | integer n => (toFloat? (integer n)).isSome
  | real d => (toFloat? (real d)).isSome
  | _ => true

/-- The same of several values. -/
def itemsBounded (depth : Nat) : List Json → Bool
  | [] => true
  | j :: js => isBounded depth j && itemsBounded depth js

/-- The same of several fields. -/
def fieldsBounded (depth : Nat) : List (String × Json) → Bool
  | [] => true
  | f :: fs => isBounded depth f.2 && fieldsBounded depth fs

end

section Levels

variable {depth : Nat} {js : List Json} {fields : List (String × Json)}

theorem isBounded_array :
    (array js).isBounded (depth + 1) = true ↔ ∀ j ∈ js, j.isBounded depth = true := by
  change itemsBounded depth js = true ↔ _
  induction js with
  | nil => simp [itemsBounded]
  | cons j js ih => simp [itemsBounded, ih]

theorem isBounded_object :
    (object fields).isBounded (depth + 1) = true ↔ ∀ f ∈ fields, f.2.isBounded depth = true := by
  change fieldsBounded depth fields = true ↔ _
  induction fields with
  | nil => simp [fieldsBounded]
  | cons f fs ih => simp [fieldsBounded, ih]

theorem isBounded_string (s : String) (depth : Nat) : (string s).isBounded depth = true := rfl

end Levels

end Json

end RuleGrounding
