import RuleGrounding.Query
import RuleGrounding.Query.Results
import RuleGrounding.Store

/-!
# Evaluating queries

A query is evaluated by joining its generators, the smallest one first; a filter
runs as soon as all its variables are bound.
-/

namespace RuleGrounding

/-- A generator of the join with its candidate rows, and the filters that can run after it. -/
structure JoinStage where
  /-- The atom that is matched. -/
  atom : Atom
  /-- The stored argument lists that it may match. -/
  rows : List Row
  /-- The filters whose last variable this stage binds. -/
  filters : List Literal

/-- Extend an assignment so that the terms match the constants, if that is possible. -/
def matchTerms (θ : Assignment) : List Term → Row → Option Assignment
  | .const c :: terms, d :: row => if c = d then matchTerms θ terms row else none
  | .var v :: terms, d :: row =>
    match θ.find? v with
    | some c => if c = d then matchTerms θ terms row else none
    | none => matchTerms (θ.insert v d) terms row
  | _, _ => some θ

namespace Store

/-- Whether the arguments of a stored atom agree with the terms that are known beforehand. -/
def agrees (pinned : Assignment) (terms : List Term) (args : Row) : Bool :=
  (terms.zip args).all fun e =>
    match e.1.value? pinned with
    | some c => c = e.2
    | none => true

/-- The argument lists of the stored atoms of admitted partitions that a generator may match, in
ascending order. -/
def candidates (s : Store) (atom : Atom) (pinned : Assignment) (sees : PartitionId → Bool) :
    List Row :=
  ((s.rows.entries.filter fun e =>
      decide (e.1.predicate = atom.predicate) && sees e.2.partition &&
        agrees pinned atom.args e.1.args).map fun e => e.1.args).mergeSort Constant.rowLe

/-- The value of a ground atom for a filter: a functional atom is computed, and a standard atom
that is not stored has value zero. -/
def filterValue (s : Store) (predicate : Predicate) (args : List Constant) : Float :=
  match predicate.kind with
  | .functional builtin => builtin.value args
  | .standard =>
    match GroundKey.make predicate args with
    | .error _ => 0.0
    | .ok k => ((s.get? k).map StoredAtom.value).getD 0.0

/-- Whether a filter literal holds under an assignment that binds its variables. -/
def filterHolds (s : Store) (θ : Assignment) (l : Literal) : Bool :=
  match l.atom.groundArgs θ with
  | .error _ => false
  | .ok args =>
    let value := s.filterValue l.atom.predicate args
    if l.negated then value == 0.0 else decide (0.0 < value)

/-- All assignments that extend the given one through the stages of a join. -/
def join (s : Store) : List JoinStage → Assignment → List Assignment
  | [], θ => [θ]
  | stage :: stages, θ =>
    stage.rows.flatMap fun row =>
      match matchTerms θ stage.atom.args row with
      | none => []
      | some θ' => if stage.filters.all (s.filterHolds θ') then s.join stages θ' else []

end Store

namespace Query

/-- Attach each filter to the first stage after which all its variables are bound. -/
def schedule (bound : List Variable) (filters : List Literal) :
    List (Atom × List Row) → List JoinStage
  | [] => []
  | (atom, rows) :: rest =>
    let bound := bound ++ atom.vars
    let ready := filters.partition fun l => l.atom.vars.all fun v => decide (v ∈ bound)
    ⟨atom, rows, ready.1⟩ :: schedule bound ready.2 rest

/-- The generators with their candidates: the lazy target first, then the smallest ones. -/
def orderedGenerators (q : Query) (s : Store) : List (Atom × List Row) :=
  let isTarget := fun (e : Nat × Literal) => decide (q.lazyTarget? = some e.1)
  let stage := fun (e : Nat × Literal) =>
    let sees := if isTarget e then fun p => decide (p = s.layout.lazy) else s.layout.contains
    (e.2.atom, s.candidates e.2.atom q.pinned sees)
  let parts := q.generators.partition isTarget
  parts.1.map stage ++
    (parts.2.map stage).mergeSort fun a b => decide (a.2.length ≤ b.2.length)

/-- The assignments that satisfy a well-formed query. -/
def solutions (q : Query) (s : Store) : List Assignment :=
  let ready := q.filters.partition fun l =>
    l.atom.vars.all fun v => decide (v ∈ q.pinned.keys)
  if ready.1.all (s.filterHolds q.pinned) then
    s.join (schedule q.pinned.keys ready.2 (q.orderedGenerators s)) q.pinned
  else []

/-- The answers to a well-formed query: the distinct projections of its solutions. -/
def answers (q : Query) (s : Store) : ResultList :=
  (ResultList.empty q.projection).pushAll
    ((q.solutions s).filterMap fun θ => q.projection.mapM θ.find?)

/-- Evaluate a query, refusing it if it is not well formed. -/
def evaluate (q : Query) (s : Store) : Except QueryFault ResultList :=
  match q.fault? with
  | some fault => .error fault
  | none => .ok (q.answers s)

/-- Merge the results of several queries into a list, stopping at the first that is refused. -/
def mergeAll (s : Store) (acc : ResultList) : List Query → Except QueryFault ResultList
  | [] => .ok acc
  | q :: qs =>
    match q.evaluate s with
    | .error fault => .error fault
    | .ok r => mergeAll s (acc.merge r) qs

/-- The union of the answers to at least one query, in the columns of the first. -/
def evaluateUnion (s : Store) : List Query → Except QueryFault ResultList
  | [] => .error .emptyUnion
  | q :: qs =>
    match q.evaluate s with
    | .error fault => .error fault
    | .ok r => mergeAll s r qs

end Query

end RuleGrounding
