import RuleGrounding.Decimal.Layout

/-!
# JSON values

A JSON value as its text gives it: numbers keep their decimal form but for
trailing zeros, and objects their fields in order, repeated names included.
-/

namespace RuleGrounding

/-- A JSON value. -/
inductive Json where
  /-- The null value. -/
  | null
  /-- A truth value. -/
  | bool (value : Bool)
  /-- A number without fraction and exponent. -/
  | integer (value : Int)
  /-- Any other number. -/
  | real (value : Decimal)
  /-- A string. -/
  | string (value : String)
  /-- An array. -/
  | array (items : List Json)
  /-- An object. -/
  | object (fields : List (String × Json))
  deriving Repr

namespace Json

/-- In JSON text, numbers from `10 ^ -5` to below `10 ^ 16` are positional and keep a point. -/
def layout : NumberLayout where
  positional e := decide (-5 ≤ e) && decide (e < 16)
  wholeFraction := true
  plusSign := "+"
  tie := .toEven

/-- A floating-point number; what is not finite has no JSON number and becomes null. -/
def ofFloat (x : Float) : Json :=
  if x.isFinite then real (Decimal.shortest layout.tie x) else null

/-- The floating-point number that a number reads as, unless it is too large. -/
def toFloat? : Json → Option Float
  | integer n =>
    let x := Decimal.toFloat ⟨decide (n < 0), n.natAbs, 0⟩
    if x.isFinite then some x else none
  | real d =>
    let x := d.toFloat
    if x.isFinite then some x else none
  | _ => none

/-- The string that a value is, if it is one. -/
def toString? : Json → Option String
  | string s => some s
  | _ => none

/-- The items of an array. -/
def toList? : Json → Option (List Json)
  | array items => some items
  | _ => none

/-- The strings of an array of strings. -/
def toStrings? (j : Json) : Option (List String) := j.toList?.bind (·.mapM toString?)

/-- The numbers of an array of numbers. -/
def toFloats? (j : Json) : Option (List Float) := j.toList?.bind (·.mapM toFloat?)

end Json

end RuleGrounding
