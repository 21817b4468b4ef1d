import RuleGrounding.Term

/-!
# Result lists

The answers to a query are distinct rows over a fixed list of variables, in the
order in which they were found.
-/

namespace RuleGrounding

/-- A row of constants, one for each variable of its result list. -/
abbrev Row := List Constant

/-- Rows over a list of variables. -/
structure ResultList where
  /-- The variables, one for each column. -/
  vars : List Variable
  /-- The rows in the order in which they came. -/
  rows : List Row
  deriving DecidableEq, Repr

namespace ResultList

/-- The result list without rows. -/
def empty (vars : List Variable) : ResultList := ⟨vars, []⟩

/-- Append a row unless it is there already. -/
def push (r : ResultList) (row : Row) : ResultList :=
  if row ∈ r.rows then r else { r with rows := r.rows ++ [row] }

/-- Append several rows, each unless it is there already. -/
def pushAll (r : ResultList) (rows : List Row) : ResultList := rows.foldl push r

/-- The column of a variable; of equal names the first counts. -/
def index? (r : ResultList) (v : Variable) : Option Nat := r.vars.idxOf? v

/-- Append the rows of another list, its columns matched by variable. If the other list lacks a
variable, nothing is appended. -/
def merge (r other : ResultList) : ResultList :=
  match r.vars.mapM other.index? with
  | none => r
  | some columns => r.pushAll (other.rows.map fun row => columns.filterMap fun i => row[i]?)

/-- The constant of a variable in a row. -/
def get? (r : ResultList) (row : Nat) (v : Variable) : Option Constant :=
  match r.rows[row]?, r.index? v with
  | some cells, some column => cells[column]?
  | _, _ => none

/-- A row as an assignment; of equal names the last counts. -/
def assign (vars : List Variable) (row : Row) : Assignment :=
  FiniteMap.ofList (vars.zip row)

/-- One row as an assignment. -/
def assignment? (r : ResultList) (row : Nat) : Option Assignment :=
  r.rows[row]?.map (assign r.vars)

/-- Every row as an assignment, in the order of the rows. -/
def assignments (r : ResultList) : List Assignment := r.rows.map (assign r.vars)

/-- The distinct constants of a variable; a variable without column has none. -/
def column (r : ResultList) (v : Variable) : List Constant :=
  match r.index? v with
  | none => []
  | some column => distinct (r.rows.filterMap fun row => row[column]?)

end ResultList

end RuleGrounding
