import RuleGrounding.Grounding.Arithmetic
import RuleGrounding.Grounding.Logical
import RuleGrounding.Rule

/-!
# Grounding rules and rule bases
-/

namespace RuleGrounding

namespace Rule

/-- Ground the rule for every answer to its query. -/
def ground (s : Store) : Rule → Grounding Nat
  | logical r => r.ground s
  | arithmetic r => r.ground s

/-- Ground the rule for given rows, which only logical rules allow. -/
def groundResults (s : Store) (results : ResultList) : Rule → Grounding Nat
  | logical r => r.groundResults s results
  | arithmetic r => throw (.unsupported r.name "grounding against a precomputed result set")

/-- Ground several rules in order and count the ground rules. -/
def groundAll (s : Store) : List Rule → Grounding Nat
  | [] => pure 0
  | r :: rs => do
    let n ← r.ground s
    let rest ← groundAll s rs
    pure (n + rest)

end Rule

/-- Ground every rule in registration order and count the ground rules. -/
def RuleBase.ground (b : RuleBase) (s : Store) : Grounding Nat := Rule.groundAll s b.rules

end RuleGrounding
