import RuleGrounding.Activation
import RuleGrounding.Config
import RuleGrounding.Exchange.GroundRules
import RuleGrounding.Exchange.Terms
import RuleGrounding.Json.Printer
import RuleGrounding.Json.Reader
import RuleGrounding.Text.Quoted
import RuleGrounding.Proofs.CrossProduct
import RuleGrounding.Proofs.Grounding.Constraints
import RuleGrounding.Proofs.Session.Lifecycle
import RuleGrounding.Proofs.Activation.Rounds
import RuleGrounding.Proofs.Grounding.Meaning
import RuleGrounding.Proofs.Activation.Outcomes
import RuleGrounding.Proofs.Session.States
import RuleGrounding.Proofs.Grounding.Substitutions
import RuleGrounding.Proofs.Grounding.Positions
import RuleGrounding.Proofs.Session.Deferral
import RuleGrounding.Proofs.Grounding.Boundness
import RuleGrounding.Proofs.Grounding.Deferring
import RuleGrounding.Proofs.Activation.Coverage
import RuleGrounding.Proofs.Grounding.Strictness
import RuleGrounding.Proofs.Enumeration.Reproducibility
import RuleGrounding.Proofs.Grounding.Traces
import RuleGrounding.Proofs.Query.Refusals
import RuleGrounding.Proofs.Activation.Faults
import RuleGrounding.Proofs.Grounding.Dropping
import RuleGrounding.Proofs.Session.Assignments
import RuleGrounding.Proofs.Session.Batches
import RuleGrounding.Proofs.Grounding.Rows
import RuleGrounding.Proofs.Session.Values
import RuleGrounding.Proofs.Session.Repetition
import RuleGrounding.Proofs.Formula.Repetitions
import RuleGrounding.Proofs.Grounding.Safety
import RuleGrounding.Proofs.Store.Moves
import RuleGrounding.Proofs.CrossProduct.Odometer
import RuleGrounding.Proofs.Partition
import RuleGrounding.Proofs.Store.Statistics
import RuleGrounding.Proofs.Query.Collector
import RuleGrounding.Proofs.Decimal.Fields
import RuleGrounding.Proofs.Decimal.Layout
import RuleGrounding.Proofs.Exchange.GroundRules
import RuleGrounding.Proofs.Grounding.Sources
import RuleGrounding.Proofs.Session.Exports
import RuleGrounding.Proofs.Formula.Clauses
import RuleGrounding.Proofs.Grounding.Cardinalities
import RuleGrounding.Proofs.Config
