import RuleGrounding.Formula.NormalForm

/-!
# Logical rules

A logical rule is a formula in clause form: its negation has a single
conjunction. The literals of that conjunction that are not negated form the body,
which is queried for groundings; the negated ones are the head.
-/

namespace RuleGrounding

/-- Why a rule's weight is refused: an infinite weight, or one that is no number. -/
def weightFault? : Option Float → Option ModelFault
  | some w => if w.isFinite then none else some (.nonFinite "rule weight" w)
  | none => none

/-- A rule as text: with a weight in front, or with a full stop behind if it is hard. -/
def weightedText (weight : Option Float) (body : String) : String :=
  match weight with
  | some w => numberText w ++ ": " ++ body
  | none => body ++ " ."

/-- A clause over atoms with a weight; a rule without weight is hard. -/
structure LogicalRule where
  /-- The rule's name. -/
  name : String
  /-- The formula as it was given. -/
  formula : Formula
  /-- The single conjunction of the formula's negation. -/
  clause : Conjunction
  /-- The weight of the rule, unless it is hard. -/
  weight : Option Float

namespace LogicalRule

/-- The variables that the positive standard literals of a conjunction bind. -/
def boundVariables (c : Conjunction) : List Variable :=
  (c.filter Literal.generates).flatMap fun l => l.atom.vars

/-- The first variable of a conjunction that is not among the given ones. -/
def firstUnbound? (c : Conjunction) (bound : List Variable) : Option Variable :=
  (c.flatMap fun l => l.atom.vars).find? fun v => v ∉ bound

/-- Why a clause is refused: it has nothing to query, or a variable that the query does not bind. -/
def clauseFault? (name : String) (clause : Conjunction) : Option ModelFault :=
  if clause.all Literal.negated then some (.emptyQuery name)
  else (firstUnbound? clause (boundVariables clause)).map fun v => .unsafeVariable name v.name

/-- Build a rule from its formula, checking the weight, the clause form and the variables. -/
def make (name : String) (formula : Formula) (weight : Option Float) :
    Except ModelFault LogicalRule :=
  match weightFault? weight with
  | some fault => .error fault
  | none =>
    match formula.expand true with
    | [clause] =>
      match clauseFault? name clause with
      | some fault => .error fault
      | none => .ok ⟨name, formula, clause, weight⟩
    | conjunctions => .error (.notAClause name conjunctions.length)

/-- A rule that is built has the only conjunction of its negated formula as its clause, and nothing
is wrong with that. -/
theorem eq_of_make {name : String} {formula : Formula} {weight : Option Float} {r : LogicalRule}
    (h : make name formula weight = .ok r) : ∃ clause, formula.expand true = [clause] ∧
      clauseFault? name clause = none ∧ r = ⟨name, formula, clause, weight⟩ := by
  rw [make] at h
  split at h
  · cases h
  · split at h
    · rename_i clause hclause
      split at h
      · cases h
      · cases h
        exact ⟨clause, hclause, ‹_›, rfl⟩
    · cases h

/-- The body: the literals that are queried for groundings. -/
def query (r : LogicalRule) : List Literal := r.clause.filter fun l => !l.negated

/-- The distinct variables in the order of their first occurrence. -/
def vars (r : LogicalRule) : List Variable :=
  distinct (r.clause.flatMap fun l => l.atom.vars)

/-- The distinct standard predicates of the body. -/
def queryPredicates (r : LogicalRule) : List Predicate :=
  distinct ((r.clause.filter Literal.generates).map fun l => l.atom.predicate)

/-- The rule as text. -/
def toText (r : LogicalRule) : String := weightedText r.weight r.formula.toText

end LogicalRule

end RuleGrounding
