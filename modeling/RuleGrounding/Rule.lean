import RuleGrounding.Rule.Arithmetic

/-!
# Rules and rule bases

A rule base is the list of rules that are grounded together; a rule is known in
it by its index.
-/

namespace RuleGrounding

/-- A rule with variables. -/
inductive Rule where
  /-- A weighted clause. -/
  | logical (r : LogicalRule)
  /-- A weighted linear constraint. -/
  | arithmetic (r : ArithmeticRule)

namespace Rule

/-- The rule's name. -/
def name : Rule → String
  | logical r => r.name
  | arithmetic r => r.name

/-- The rule's weight, unless it is hard. -/
def weight : Rule → Option Float
  | logical r => r.weight
  | arithmetic r => r.weight

/-- The rule as text. -/
def toText : Rule → String
  | logical r => r.toText
  | arithmetic r => r.toText

end Rule

/-- The rules that are grounded together, in the order of their registration. -/
structure RuleBase where
  /-- The rules. -/
  rules : List Rule

namespace RuleBase

/-- The rule base without rules. -/
def empty : RuleBase := ⟨[]⟩

/-- Register a rule behind the others; its index is the old number of rules. -/
def add (b : RuleBase) (r : Rule) : RuleBase := ⟨b.rules ++ [r]⟩

end RuleBase

end RuleGrounding
