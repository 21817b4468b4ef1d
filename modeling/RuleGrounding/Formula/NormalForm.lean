import RuleGrounding.Formula

/-!
# Disjunctive normal form

A formula is brought into a disjunction of conjunctions of literals: negations
are pushed to the atoms, conjunctions are distributed over disjunctions, and a
conjunction keeps each literal once, where it first came.
-/

namespace RuleGrounding

/-- The literals that have to hold together. -/
abbrev Conjunction := List Literal

/-- A disjunction of conjunctions of literals. -/
abbrev NormalForm := List Conjunction

/-- Both conjunctions together, a literal of both counted once. -/
def Conjunction.merge (left right : Conjunction) : Conjunction :=
  right.foldl (fun acc l => if l ∈ acc then acc else acc ++ [l]) left

/-- Every conjunction of the one normal form together with every one of the other. -/
def NormalForm.product (left right : NormalForm) : NormalForm :=
  left.flatMap fun l => right.map l.merge

namespace Formula

mutual

/-- The normal form of a formula, or of its negation. A negated disjunction is a conjunction of
negations, and a negated conjunction a disjunction of negations. -/
def expand (negated : Bool) : Formula → NormalForm
  | .atom a => [[⟨a, negated⟩]]
  | .negation f => f.expand (!negated)
  | .conjunction fs => if negated then expandSome negated fs else expandAll negated [[]] fs
  | .disjunction fs => if negated then expandAll negated [[]] fs else expandSome negated fs

/-- The normal form of the conjunction of `acc` with all of the formulas. -/
def expandAll (negated : Bool) (acc : NormalForm) : List Formula → NormalForm
  | [] => acc
  | f :: fs => expandAll negated (acc.product (f.expand negated)) fs

/-- The normal form of the disjunction of the formulas. -/
def expandSome (negated : Bool) : List Formula → NormalForm
  | [] => []
  | f :: fs => f.expand negated ++ expandSome negated fs

end

/-- The disjunctive normal form. -/
def normalForm (f : Formula) : NormalForm := f.expand false

end Formula

/-- The literal as a formula. -/
def Literal.toFormula (l : Literal) : Formula :=
  if l.negated then .negation (.atom l.atom) else .atom l.atom

/-- The normal form as a formula. -/
def NormalForm.toFormula (nf : NormalForm) : Formula :=
  .disjunction (nf.map fun c => .conjunction (c.map Literal.toFormula))

end RuleGrounding
