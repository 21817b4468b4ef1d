import RuleGrounding.CrossProduct
import RuleGrounding.Grounding
import RuleGrounding.OrderedSet
import RuleGrounding.Rule.Arithmetic

/-!
# Grounding arithmetic rules

The rows of an arithmetic rule assign its ordinary variables. For each row the
select formulas give the sets over which the summation variables range; the
coefficients depend on the sizes of these sets, and each summation atom is
expanded over them.
-/

namespace RuleGrounding

/-- The set over which each summation variable ranges, in ascending order. -/
abbrev SelectionSets := FiniteMap SummationVariable (List Constant)

/-- The size of a summation variable's set; without a set the size is zero. -/
def SelectionSets.size (sets : SelectionSets) (v : SummationVariable) : Nat :=
  ((sets.find? v).getD []).length

/-- A term whose coefficient is known, with the elements for each argument. -/
structure Expansion where
  /-- The relation. -/
  predicate : Predicate
  /-- The value of the coefficient. -/
  coefficient : Float
  /-- The constants for each argument. -/
  domains : List (List Constant)

/-- The inequalities that say the same as a comparison. -/
def Comparator.inequalities : Comparator → List Inequality
  | equal => [.greaterOrEqual, .lessOrEqual]
  | greaterOrEqual => [.greaterOrEqual]
  | lessOrEqual => [.lessOrEqual]

namespace ArithmeticRule

/-- The query for the rows: the atoms of all terms, for the ordinary variables. -/
def groundingQuery (r : ArithmeticRule) : Query :=
  (Query.ofLiterals (distinct (r.expression.terms.map fun t => .positive t.atom.queryAtom))).project
    r.expression.vars

/-- The query for a summation variable in one conjunction of its select formula. -/
def selectQuery (θ : Assignment) (v : SummationVariable) (c : Conjunction) : Query :=
  ((Query.ofLiterals c).pin θ).project [v.plain]

/-- Add the constants that some conjunctions select for a summation variable. -/
def selectAll (s : Store) (θ : Assignment) (v : SummationVariable) (set : List Constant) :
    NormalForm → Grounding (List Constant)
  | [] => pure set
  | c :: cs => do
    let results ← Grounding.query s (selectQuery θ v c)
    selectAll s θ v (OrderedSet.insertAll Constant.le (results.rows.filterMap List.head?) set) cs

/-- Add the constants that are selected in one row for the given summation variables to their
sets; a variable without a set gets one. -/
def fillSets (r : ArithmeticRule) (s : Store) (θ : Assignment) (sets : SelectionSets) :
    List SummationVariable → Grounding SelectionSets
  | [] => pure sets
  | v :: vs => do
    let set ← selectAll s θ v ((sets.find? v).getD []) ((r.selects.find? v).getD [])
    fillSets r s θ (sets.insert v set) vs

/-- The selection sets of the given summation variables for one row. -/
def selectionSets (r : ArithmeticRule) (s : Store) (θ : Assignment)
    (vs : List SummationVariable) : Grounding SelectionSets :=
  r.fillSets s θ ∅ vs

/-- Replace the selection sets of an earlier row by those of this one. -/
def recomputeSets (r : ArithmeticRule) (s : Store) (θ : Assignment) (sets : SelectionSets) :
    Grounding SelectionSets :=
  r.fillSets s θ sets.clear r.expression.summationVariables

/-- Nothing is left of the sets of the earlier row. -/
theorem recomputeSets_eq (r : ArithmeticRule) (s : Store) (θ : Assignment) (sets : SelectionSets) :
    r.recomputeSets s θ sets = r.selectionSets s θ r.expression.summationVariables := rfl

/-- The constants for each argument of a term: a summation variable has its set, any other
argument its one constant. -/
def domains (θ : Assignment) (sets : SelectionSets) :
    List SummationTerm → Grounding (List (List Constant))
  | [] => pure []
  | .sum v :: args => do
    let rest ← domains θ sets args
    pure ((sets.find? v).getD [] :: rest)
  | .plain (.const c) :: args => do
    let rest ← domains θ sets args
    pure ([c] :: rest)
  | .plain (.var v) :: args =>
    match θ.find? v with
    | none => throw (.missingBinding v.name)
    | some c => do
      let rest ← domains θ sets args
      pure ([c] :: rest)

/-- Settle the coefficients of the terms, leaving out terms without tuples. There is no result if
a coefficient is not finite. -/
def settle (θ : Assignment) (sets : SelectionSets) :
    List ExpressionTerm → Grounding (Option (List Expansion))
  | [] => pure (some [])
  | t :: ts => do
    let ds ← domains θ sets t.atom.args
    if ds.any List.isEmpty then settle θ sets ts
    else
      let coefficient := t.coefficient.value sets.size
      if coefficient.isFinite then
        let rest ← settle θ sets ts
        pure (rest.map (⟨t.atom.predicate, coefficient, ds⟩ :: ·))
      else pure none

/-- Resolve a predicate with several argument lists. -/
def resolveAll (s : Store) (predicate : Predicate) : List (List Constant) → Grounding (List Handle)
  | [] => pure []
  | args :: rest => do
    let h ← Grounding.resolve s predicate args
    let hs ← resolveAll s predicate rest
    pure (h :: hs)

/-- Expand settled terms into coefficients and atoms. -/
def expandAll (s : Store) : List Expansion → Grounding (List (Float × Handle))
  | [] => pure []
  | e :: es => do
    let hs ← resolveAll s e.predicate (CrossProduct.tuples e.domains)
    let rest ← expandAll s es
    pure (hs.map (fun h => (e.coefficient, h)) ++ rest)

/-- The ground constraint of one row with a given relation. -/
def constraintOf (r : ArithmeticRule) (entries : List (Float × Handle)) (constant : Float)
    (comparator : Inequality) : GroundRule :=
  .arithmetic ⟨r.name, r.weight, entries.map Prod.fst, entries.map Prod.snd, comparator, constant⟩

/-- Ground one row for given selection sets. A row with a coefficient or a right side that is not
finite is skipped before any atom is resolved. -/
def groundRow (r : ArithmeticRule) (s : Store) (θ : Assignment) (sets : SelectionSets) :
    Grounding Nat := do
  match ← settle θ sets r.expression.terms with
  | none => pure 0
  | some expansions =>
    let constant := r.expression.constant.value sets.size
    if constant.isFinite then
      let entries ← expandAll s expansions
      let comparators := r.expression.comparator.inequalities
      comparators.forM fun c => Grounding.emit (r.constraintOf entries constant c)
      pure comparators.length
    else pure 0

/-- Ground several rows in order and count the ground constraints. The selection sets of a row are
put in the place of those of the row before. -/
def groundRows (r : ArithmeticRule) (s : Store) (sets : SelectionSets) :
    List Assignment → Grounding Nat
  | [] => pure 0
  | θ :: rows => do
    let sets ← r.recomputeSets s θ sets
    let n ← groundRow r s θ sets
    let rest ← groundRows r s sets rows
    pure (n + rest)

/-- Ground the rule for every answer to its query. -/
def ground (r : ArithmeticRule) (s : Store) : Grounding Nat := do
  let results ← Grounding.query s r.groundingQuery
  r.groundRows s ∅ results.assignments

end ArithmeticRule

end RuleGrounding
