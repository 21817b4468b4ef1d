import RuleGrounding.Decimal.Layout
import RuleGrounding.Fault

/-!
# Faults of atoms, formulas and rules

Why an atom, an expression or a rule is refused when it is built.
-/

namespace RuleGrounding

/-- Why an atom, an expression or a rule is refused. -/
inductive ModelFault where
  /-- The number of arguments is not the predicate's. -/
  | arity (predicate : String) (expected actual : Nat)
  /-- A constant has not the type of its argument. -/
  | argumentType (predicate : String) (position : Nat) (expected actual : String)
  /-- A conjunction or disjunction of nothing. -/
  | emptyConnective (connective : String)
  /-- The negated rule has several conjunctions, or none. -/
  | notAClause (rule : String) (conjunctions : Nat)
  /-- The rule has no positive body literal. -/
  | emptyQuery (rule : String)
  /-- A variable is bound by no positive standard literal. -/
  | unsafeVariable (rule name : String)
  /-- An expression without terms. -/
  | emptyExpression
  /-- A summation variable is referred to that no summation atom has. -/
  | unknownSummationVariable (name : String)
  /-- A summation variable has no select formula. -/
  | missingSelect (name : String)
  /-- A name is both a summation variable and an ordinary one. -/
  | summationClash (name : String)
  /-- A number is infinite or no number. -/
  | nonFinite (what : String) (value : Float)
  deriving Repr

namespace ModelFault

/-- What is said about a refused atom, expression or rule. -/
def diagnosis : ModelFault → Diagnosis
  | arity predicate expected actual => {
      code := "model::arity"
      message := s!"predicate {predicate} takes {expected} arguments, got {actual}"
      help := "Every atom must supply exactly one term per argument slot of its predicate." }
  | argumentType predicate position expected actual => {
      code := "model::argument_type"
      message := s!"argument {position} of {predicate} expects {expected}, got constant {actual}"
      help := "Constants must match the declared argument type of the predicate slot." }
  | emptyConnective connective => {
      code := "model::empty_connective"
      message := s!"{connective} requires at least one sub-formula"
      help := "Build conjunctions and disjunctions from a non-empty list of formulas." }
  | notAClause rule conjunctions => {
      code := "model::not_a_clause"
      message :=
        s!"rule '{rule}' is not a clause: its negation has {conjunctions} DNF conjunctions"
      help := "Logical rules must be a disjunction of literals, e.g. an implication " ++
        "whose body is a conjunction and whose head is a disjunction." }
  | emptyQuery rule => {
      code := "model::empty_query"
      message := s!"rule '{rule}' has no positive body literal to query"
      help :=
        "At least one atom must appear in the rule body so groundings can be enumerated." }
  | unsafeVariable rule name => {
      code := "model::unsafe_variable"
      message := s!"variable {name} in rule '{rule}' does not appear in the query formula"
      help := "Every variable must be bound by a positive, standard-predicate body atom. " ++
        "Variables that only occur negated or in the head cannot be enumerated." }
  | emptyExpression => {
      code := "model::empty_expression"
      message := "arithmetic expression has no terms"
      help := "An arithmetic rule needs at least one coefficient/atom pair." }
  | unknownSummationVariable name => {
      code := "model::unused_summation"
      message := s!"summation variable +{name} is used but never appears in a summation atom"
      help := "Cardinality coefficients and select formulas may only refer to summation " ++
        "variables of the expression." }
  | missingSelect name => {
      code := "model::missing_select"
      message := s!"summation variable +{name} has no select formula"
      help := "Provide a select formula that defines the set each summation variable " ++
        "ranges over." }
  | summationClash name => {
      code := "model::summation_clash"
      message :=
        s!"variable {name} is used both as a summation variable and as an ordinary variable"
      help := "Rename one of the occurrences; summation variables are bound by their " ++
        "select formula only." }
  | nonFinite what value => {
      code := "model::non_finite"
      message := s!"{what} must be finite, got {numberText value}"
      help := "Weights and constants must be finite floating-point numbers." }

end ModelFault

end RuleGrounding
