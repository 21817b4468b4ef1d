import RuleGrounding.Atom
import RuleGrounding.Fault.Query

/-!
# Queries

A query is a conjunction of literals. Its positive standard literals generate
bindings and all others are filters, so a query is well formed if every variable
of a filter is bound by a generator or pinned from outside.
-/

namespace RuleGrounding

/-- A conjunctive query over the store. -/
structure Query where
  /-- The literals that have to hold together. -/
  literals : List Literal
  /-- The variables to return, unless all variables of the literals are. -/
  projection? : Option (List Variable)
  /-- Variables that are fixed before evaluation. -/
  pinned : Assignment
  /-- The index of a literal that only sees atoms of the lazy partition. -/
  lazyTarget? : Option Nat

namespace Query

/-- The query for all variables of some literals. -/
def ofLiterals (literals : List Literal) : Query := ⟨literals, none, ∅, none⟩

/-- Return only the given variables, in this order. -/
def project (q : Query) (vars : List Variable) : Query :=
  { q with projection? := some vars }

/-- Fix variables before evaluation. -/
def pin (q : Query) (θ : Assignment) : Query := { q with pinned := θ }

/-- Let one literal see only atoms of the lazy partition. -/
def target (q : Query) (index : Nat) : Query := { q with lazyTarget? := some index }

/-- The distinct variables of the literals in the order of their first occurrence. -/
def formulaVariables (q : Query) : List Variable :=
  distinct (q.literals.flatMap fun l => l.atom.vars)

/-- The variables that are returned. -/
def projection (q : Query) : List Variable := q.projection?.getD q.formulaVariables

/-- The literals that generate bindings, each with its index. -/
def generators (q : Query) : List (Nat × Literal) :=
  ((List.range q.literals.length).zip q.literals).filter fun e => e.2.generates

/-- The literals that filter bindings. -/
def filters (q : Query) : List Literal := q.literals.filter fun l => !l.generates

/-- The variables that have a constant once all generators are joined. -/
def boundVariables (q : Query) : List Variable :=
  q.pinned.keys ++ q.generators.flatMap fun e => e.2.atom.vars

/-- The lazy target has to be a generator. -/
def targetFault? (q : Query) : Option QueryFault :=
  match q.lazyTarget? with
  | none => none
  | some index =>
    if (q.literals[index]?).any Literal.generates then none
    else some (.lazyTarget index q.literals.length)

/-- Every projected variable has to occur in the literals or to be pinned. -/
def projectionFault? (q : Query) : Option QueryFault :=
  (q.projection.find? fun v => v ∉ q.formulaVariables && !q.pinned.contains v).map fun v =>
    .unknownProjection v.name

/-- Every variable of a filter has to be bound. -/
def filterFault? (q : Query) : Option QueryFault :=
  q.filters.findSome? fun l =>
    (l.atom.vars.find? fun v => v ∉ q.boundVariables).map fun v =>
      .unboundVariable v.name l.toText

/-- Why the query is refused: the target first, then the projection, then the filters. -/
def fault? (q : Query) : Option QueryFault :=
  q.targetFault? <|> q.projectionFault? <|> q.filterFault?

end Query

end RuleGrounding
