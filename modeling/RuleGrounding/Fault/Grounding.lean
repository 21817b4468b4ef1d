import RuleGrounding.Fault.Model
import RuleGrounding.Fault.Query
import RuleGrounding.Fault.Store
import RuleGrounding.GroundAtom

/-!
# Faults of grounding and activation

Why an atom is not resolved, a rule not grounded, or lazy atoms not activated.
-/

namespace RuleGrounding

/-- Why an atom is not resolved. -/
inductive LookupFault where
  /-- The atom is not stored; with it comes what it would be. -/
  | unknownAtom (atom : GroundAtom)
  /-- The arguments do not fit the predicate. -/
  | invalidKey (fault : ModelFault)

/-- What is said about an atom that is not resolved. -/
def LookupFault.diagnosis : LookupFault → Diagnosis
  | unknownAtom atom => {
      code := "atom::unknown"
      message := s!"unknown ground atom {atom.key.toText}"
      help := "The atom is not stored in any visible partition. Insert it into the store " ++
        "first, or ground with a lazy atom manager to defer it." }
  | invalidKey fault => fault.diagnosis

/-- Why a rule is not grounded. -/
inductive GroundingFault where
  /-- The query of the rule is refused. -/
  | query (fault : QueryFault)
  /-- An atom of a row is not resolved. -/
  | lookup (fault : LookupFault)
  /-- A row has no constant for a variable of the rule. -/
  | missingBinding (name : String)
  /-- Arithmetic rules do not have the operation. -/
  | unsupported (rule operation : String)

/-- What is said about a rule that is not grounded. -/
def GroundingFault.diagnosis : GroundingFault → Diagnosis
  | query fault => fault.diagnosis
  | lookup fault => fault.diagnosis
  | missingBinding name => {
      code := "grounding::missing_binding"
      message := s!"variable {name} has no binding in the result row"
      help := "The executor must project every free variable of the rule." }
  | unsupported rule operation => {
      code := "grounding::unsupported"
      message := s!"unsupported operation on arithmetic rule '{rule}': {operation}"
      help := "Arithmetic rules support full grounding only. They cannot register for atom " ++
        "events or be reground incrementally from a precomputed result set." }

/-- Why lazy atoms are not activated. -/
inductive ActivationFault where
  /-- The threshold is not above zero and at most one. -/
  | invalidThreshold (value : Float)
  /-- An affected rule has no literal over an activated predicate. -/
  | noLazyTargets (rule : String)
  /-- The store refuses the atoms. -/
  | store (fault : StoreFault)
  /-- A query of an affected rule is refused. -/
  | query (fault : QueryFault)
  /-- An affected rule is not grounded. -/
  | grounding (fault : GroundingFault)

/-- What is said about lazy atoms that are not activated. -/
def ActivationFault.diagnosis : ActivationFault → Diagnosis
  | invalidThreshold value => {
      code := "activation::threshold"
      message := s!"activation threshold must be in (0, 1], got {numberText value}"
      help := "Pick a threshold such as 0.01; zero would activate every lazy atom." }
  | noLazyTargets rule => {
      code := "activation::no_targets"
      message := s!"lazy regrounding of rule '{rule}' requested with no lazy targets"
      help := "This is an internal invariant violation; please file a bug report." }
  | store fault => fault.diagnosis
  | query fault => fault.diagnosis
  | grounding fault => fault.diagnosis

end RuleGrounding
