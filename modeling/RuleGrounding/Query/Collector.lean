import RuleGrounding.OrderedSet
import RuleGrounding.Query.Results

/-!
# Collecting rows

A result list that grows row by row keeps its rows in an ordered set as well, in which each new row
is looked up.
-/

namespace RuleGrounding

/-- A result list together with the set of its rows. -/
structure RowCollector where
  /-- The rows in the order in which they came. -/
  results : ResultList
  /-- The rows that have been seen. -/
  seen : List Row
  deriving DecidableEq, Repr

namespace RowCollector

/-- Nothing has been collected. -/
def empty (vars : List Variable) : RowCollector := ⟨.empty vars, []⟩

/-- Append a row unless it has been seen, and tell whether it is new. -/
def push (c : RowCollector) (row : Row) : Bool × RowCollector :=
  if c.seen.contains row then (false, c)
  else
    (true, {
      results := { c.results with rows := c.results.rows ++ [row] }
      seen := OrderedSet.insert Constant.rowLe row c.seen })

/-- Append several rows, each unless it has been seen. -/
def pushAll (c : RowCollector) (rows : List Row) : RowCollector :=
  rows.foldl (fun c row => (c.push row).2) c

/-- Append the rows of a result list, its columns matched by variable. If it lacks a variable,
nothing is appended. -/
def merge (c : RowCollector) (other : ResultList) : RowCollector :=
  match c.results.vars.mapM other.index? with
  | none => c
  | some columns => c.pushAll (other.rows.map fun row => columns.filterMap fun i => row[i]?)

end RowCollector

end RuleGrounding
