import RuleGrounding.Atom

/-!
# Coefficients

The coefficient of a term is computed for each row from numbers and from the
sizes of selection sets.
-/

namespace RuleGrounding

/-- A variable that ranges over a selection set and not over the rows of a query. -/
structure SummationVariable where
  /-- The plain variable that the select formula binds. -/
  plain : Variable
  deriving DecidableEq, Repr

/-- The summation variable with its mark. -/
def SummationVariable.toText (v : SummationVariable) : String := "+" ++ v.plain.name

/-- An expression for a coefficient. -/
inductive Coefficient where
  /-- A number. -/
  | number (value : Float)
  /-- The size of a selection set. -/
  | cardinality (v : SummationVariable)
  /-- The sum of two coefficients. -/
  | add (a b : Coefficient)
  /-- The difference of two coefficients. -/
  | sub (a b : Coefficient)
  /-- The product of two coefficients. -/
  | mul (a b : Coefficient)
  /-- The quotient of two coefficients. -/
  | div (a b : Coefficient)
  /-- The smaller of two coefficients. -/
  | min (a b : Coefficient)
  /-- The larger of two coefficients. -/
  | max (a b : Coefficient)
  deriving Repr

/-- The smaller number; a number is preferred to what is none. -/
def lesser (a b : Float) : Float := if a.isNaN || decide (b < a) then b else a

/-- The larger number; a number is preferred to what is none. -/
def greater (a b : Float) : Float := if a.isNaN || decide (a < b) then b else a

namespace Coefficient

/-- The value of a coefficient, given the sizes of the selection sets. -/
def value (size : SummationVariable → Nat) : Coefficient → Float
  | number c => c
  | cardinality v => (size v).toFloat
  | add a b => a.value size + b.value size
  | sub a b => a.value size - b.value size
  | mul a b => a.value size * b.value size
  | div a b => a.value size / b.value size
  | min a b => lesser (a.value size) (b.value size)
  | max a b => greater (a.value size) (b.value size)

/-- The summation variables from left to right, with repetitions. -/
def occurrences : Coefficient → List SummationVariable
  | number _ => []
  | cardinality v => [v]
  | add a b | sub a b | mul a b | div a b | min a b | max a b => a.occurrences ++ b.occurrences

/-- The coefficient as text. -/
def toText : Coefficient → String
  | number c => numberText c
  | cardinality v => "|" ++ v.plain.name ++ "|"
  | add a b => "(" ++ a.toText ++ " + " ++ b.toText ++ ")"
  | sub a b => "(" ++ a.toText ++ " - " ++ b.toText ++ ")"
  | mul a b => "(" ++ a.toText ++ " * " ++ b.toText ++ ")"
  | div a b => "(" ++ a.toText ++ " / " ++ b.toText ++ ")"
  | min a b => "@Min[" ++ a.toText ++ ", " ++ b.toText ++ "]"
  | max a b => "@Max[" ++ a.toText ++ ", " ++ b.toText ++ "]"

end Coefficient

end RuleGrounding
