import RuleGrounding.Grounding
import RuleGrounding.Rule.Logical

/-!
# Grounding logical rules

Each answer to the body of a rule gives a ground clause. Functional literals are
decided on the spot: one that makes the clause true drops the whole row, any
other drops out of the clause.
-/

namespace RuleGrounding

/-- The two sides of a ground clause. -/
structure ClauseSides where
  /-- The atoms that the clause asserts. -/
  positive : List Handle
  /-- The atoms that the clause denies. -/
  negative : List Handle

namespace ClauseSides

/-- No atoms on either side. -/
def empty : ClauseSides := ⟨[], []⟩

/-- Put the atom of a literal of the negated clause on its side: a negated literal is asserted. -/
def add (sides : ClauseSides) (negated : Bool) (h : Handle) : ClauseSides :=
  if negated then { sides with positive := sides.positive ++ [h] }
  else { sides with negative := sides.negative ++ [h] }

end ClauseSides

namespace LogicalRule

/-- Resolve the atom of a literal under an assignment. -/
def resolveLiteral (s : Store) (θ : Assignment) (l : Literal) : Grounding Handle :=
  match l.atom.groundArgs θ with
  | .error v => throw (.missingBinding v.name)
  | .ok args => Grounding.resolve s l.atom.predicate args

/-- Ground the literals of a clause in order. There is no result once a functional literal makes
the clause true: a false one of the body or a true one of the head. -/
def groundLiterals (s : Store) (θ : Assignment) :
    Conjunction → ClauseSides → Grounding (Option ClauseSides)
  | [], sides => pure (some sides)
  | l :: ls, sides => do
    let h ← resolveLiteral s θ l
    if l.atom.predicate.isStandard then
      groundLiterals s θ ls (sides.add l.negated h)
    else
      let value ← Grounding.valueOf h
      if decide (0.0 < value) = l.negated then pure none else groundLiterals s θ ls sides

/-- The ground clause with the given sides, unless both are empty. -/
def clauseOf? (r : LogicalRule) (sides : ClauseSides) : Option GroundRule :=
  if sides.positive.isEmpty && sides.negative.isEmpty then none
  else some (.logical ⟨r.name, r.weight, sides.positive, sides.negative⟩)

/-- Ground one row; the result is the number of ground clauses produced, none or one. -/
def groundRow (r : LogicalRule) (s : Store) (θ : Assignment) : Grounding Nat := do
  match (← groundLiterals s θ r.clause .empty).bind r.clauseOf? with
  | none => pure 0
  | some g =>
    Grounding.emit g
    pure 1

/-- Ground several rows in order and count the ground clauses. -/
def groundRows (r : LogicalRule) (s : Store) : List Assignment → Grounding Nat
  | [] => pure 0
  | θ :: rows => do
    let n ← groundRow r s θ
    let rest ← groundRows r s rows
    pure (n + rest)

/-- The query whose answers are grounded: the body, for all variables of the rule. -/
def groundingQuery (r : LogicalRule) : Query := (Query.ofLiterals r.query).project r.vars

/-- Ground the rule for given rows. -/
def groundResults (r : LogicalRule) (s : Store) (results : ResultList) : Grounding Nat :=
  r.groundRows s results.assignments

/-- Ground the rule for every answer to its body. -/
def ground (r : LogicalRule) (s : Store) : Grounding Nat := do
  let results ← Grounding.query s r.groundingQuery
  r.groundResults s results

end LogicalRule

end RuleGrounding
