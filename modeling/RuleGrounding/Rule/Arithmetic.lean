import RuleGrounding.Arithmetic.Expression
import RuleGrounding.Rule.Logical

/-!
# Arithmetic rules

An arithmetic rule is a linear constraint over atoms. Each of its summation
variables has a select formula, which says over which constants it ranges.
-/

namespace RuleGrounding

/-- A linear constraint with a weight; a rule without weight is hard. -/
structure ArithmeticRule where
  /-- The rule's name. -/
  name : String
  /-- The constraint. -/
  expression : Expression
  /-- The select formula of each summation variable, in normal form. -/
  selects : FiniteMap SummationVariable NormalForm
  /-- The weight of the rule, unless it is hard. -/
  weight : Option Float

namespace ArithmeticRule

/-- Whether a conjunction binds a variable by a positive standard literal. -/
def bindsVariable (c : Conjunction) (v : Variable) : Bool :=
  c.any fun l => l.generates && decide (v ∈ l.atom.vars)

/-- Why one conjunction of a select formula is refused: it does not bind the summation variable,
or it has a variable that neither the rows of the rule nor the conjunction itself bind. -/
def conjunctionFault? (name : String) (outer : List Variable) (v : SummationVariable)
    (c : Conjunction) : Option ModelFault :=
  if bindsVariable c v.plain then
    (LogicalRule.firstUnbound? c (outer ++ LogicalRule.boundVariables c)).map fun u =>
      .unsafeVariable name u.name
  else some (.unsafeVariable name v.toText)

/-- Why the select formula of one summation variable is refused. -/
def selectFault? (name : String) (outer : List Variable)
    (selects : FiniteMap SummationVariable Formula) (v : SummationVariable) : Option ModelFault :=
  match selects.find? v with
  | none => some (.missingSelect v.plain.name)
  | some f => f.normalForm.findSome? (conjunctionFault? name outer v)

/-- Build a rule from its expression and its select formulas, checking the weight, that only
summation variables of the expression have one, and the formula of each of them. -/
def make (name : String) (expression : Expression)
    (selects : FiniteMap SummationVariable Formula) (weight : Option Float) :
    Except ModelFault ArithmeticRule :=
  match weightFault? weight with
  | some fault => .error fault
  | none =>
    match selects.keys.find? fun v => v ∉ expression.summationVariables with
    | some v => .error (.unknownSummationVariable v.plain.name)
    | none =>
      match expression.summationVariables.findSome?
          (selectFault? name expression.vars selects) with
      | some fault => .error fault
      | none => .ok ⟨name, expression, selects.mapValues fun _ f => f.normalForm, weight⟩

/-- Whether some term is over the predicate. -/
def mentions (r : ArithmeticRule) (p : Predicate) : Bool :=
  r.expression.terms.any fun t => t.atom.predicate = p

/-- The rule as text. -/
def toText (r : ArithmeticRule) : String := weightedText r.weight r.expression.toText

end ArithmeticRule

end RuleGrounding
