import RuleGrounding.Arithmetic.Coefficient
import RuleGrounding.GroundAtom

/-!
# Ground rules

Grounding turns rules into ground clauses and ground constraints over shared
atoms. Their truth and distance are read off the atoms' current values.
-/

namespace RuleGrounding

/-- A clause over ground atoms. -/
structure GroundClause where
  /-- The name of the rule that was grounded. -/
  rule : String
  /-- The weight of that rule, unless it is hard. -/
  weight : Option Float
  /-- The atoms that the clause asserts: the head. -/
  positive : List Handle
  /-- The atoms that the clause denies: the body. -/
  negative : List Handle

/-- The relation of a ground constraint; an equality is two constraints. -/
inductive Inequality where
  /-- At most the constant. -/
  | lessOrEqual
  /-- At least the constant. -/
  | greaterOrEqual
  deriving DecidableEq, Repr

/-- The sign of the relation. -/
def Inequality.toText : Inequality → String
  | lessOrEqual => "<="
  | greaterOrEqual => ">="

/-- A linear constraint over ground atoms. -/
structure GroundConstraint where
  /-- The name of the rule that was grounded. -/
  rule : String
  /-- The weight of that rule, unless it is hard. -/
  weight : Option Float
  /-- The coefficients, in the order of their atoms. -/
  coefficients : List Float
  /-- The atoms. -/
  atoms : List Handle
  /-- The relation. -/
  comparator : Inequality
  /-- The number on the right. -/
  constant : Float

/-- The sum of some numbers from left to right. -/
def total (xs : List Float) : Float := xs.foldl (· + ·) 0.0

namespace GroundClause

/-- The truth of the clause: the sum of the truths of its literals, at most one. -/
def truth (g : GroundClause) (pool : AtomPool) : Float :=
  lesser (total (g.positive.map pool.value) + total (g.negative.map fun a => 1.0 - pool.value a))
    1.0

/-- How far the clause is from being true. -/
def distance (g : GroundClause) (pool : AtomPool) : Float := 1.0 - g.truth pool

/-- The atoms, denied ones first. -/
def atoms (g : GroundClause) : List Handle := g.negative ++ g.positive

/-- The clause as text, denied atoms first. -/
def toText (g : GroundClause) : String :=
  String.intercalate " | "
    ((g.negative.map fun a => "~" ++ a.key.toText) ++ g.positive.map fun a => a.key.toText)

end GroundClause

namespace GroundConstraint

/-- The value of the linear combination. -/
def combination (g : GroundConstraint) (pool : AtomPool) : Float :=
  total ((g.coefficients.zip g.atoms).map fun e => e.1 * pool.value e.2)

/-- By how much the constraint is violated. -/
def violation (g : GroundConstraint) (pool : AtomPool) : Float :=
  match g.comparator with
  | .lessOrEqual => greater (g.combination pool - g.constant) 0.0
  | .greaterOrEqual => greater (g.constant - g.combination pool) 0.0

/-- The constraint as text. -/
def toText (g : GroundConstraint) : String :=
  String.intercalate " + "
      ((g.coefficients.zip g.atoms).map fun e => numberText e.1 ++ " * " ++ e.2.key.toText) ++
    (if g.atoms.isEmpty then "0" else "") ++ " " ++ g.comparator.toText ++ " " ++
    numberText g.constant

end GroundConstraint

/-- What grounding produces. -/
inductive GroundRule where
  /-- A ground clause. -/
  | logical (g : GroundClause)
  /-- A ground constraint. -/
  | arithmetic (g : GroundConstraint)

namespace GroundRule

/-- The name of the rule that was grounded. -/
def ruleName : GroundRule → String
  | logical g => g.rule
  | arithmetic g => g.rule

/-- The weight of the rule that was grounded, unless it is hard. -/
def weight : GroundRule → Option Float
  | logical g => g.weight
  | arithmetic g => g.weight

/-- The atoms of the ground rule. -/
def atoms : GroundRule → List Handle
  | logical g => g.atoms
  | arithmetic g => g.atoms

/-- The ground rule as text. -/
def toText : GroundRule → String
  | logical g => g.toText
  | arithmetic g => g.toText

end GroundRule

end RuleGrounding
