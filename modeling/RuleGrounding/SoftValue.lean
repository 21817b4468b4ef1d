/-!
# Soft truth values

Truth values are numbers from zero to one.
-/

namespace RuleGrounding

namespace SoftValue

/-- Whether a number lies between zero and one. -/
def inUnit (x : Float) : Bool := decide (0.0 ≤ x) && decide (x ≤ 1.0)

/-- The nearest number between zero and one. -/
def clamp (x : Float) : Float :=
  let raised := if x < 0.0 then 0.0 else x
  if 1.0 < raised then 1.0 else raised

end SoftValue

end RuleGrounding
