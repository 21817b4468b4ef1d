import RuleGrounding.Term

/-!
# Statistics of a table

For each column of a table, the values that occur in it are kept in ascending
order, once for each row. A row may be shorter than the table is wide; it then
has no value in the columns that it lacks.
-/

namespace RuleGrounding

/-- The number of rows and the values of every column. -/
structure TableStatistics where
  /-- The number of rows. -/
  count : Nat
  /-- The values of each column in ascending order. -/
  columns : List (List Constant)
  deriving DecidableEq, Repr

namespace TableStatistics

/-- The statistics of some rows of a table of the given width. -/
def ofRows (arity : Nat) (rows : List (List Constant)) : TableStatistics where
  count := rows.length
  columns := (List.range arity).map fun column =>
    (rows.filterMap fun row => row[column]?).mergeSort Constant.le

/-- The number of runs of equal neighbours in a list. -/
def runs : List Constant → Nat
  | [] => 0
  | [_] => 1
  | a :: b :: rest => if a = b then runs (b :: rest) else runs (b :: rest) + 1

/-- The number of different values of a column. -/
def cardinality (s : TableStatistics) (column : Nat) : Option Nat := s.columns[column]?.map runs

/-- The share of different values among the rows; a table without rows has share zero. -/
def selectivity (s : TableStatistics) (column : Nat) : Option Float :=
  (s.cardinality column).map fun n => if s.count = 0 then 0.0 else n.toFloat / s.count.toFloat

/-- Search the positions from one to another for the first element without a property: halve the
range by a look at its middle. -/
def searchBetween (before : Constant → Bool) (values : List Constant) (low high : Nat) : Nat :=
  if low < high then
    let middle := (low + high) / 2
    if values[middle]?.any before then searchBetween before values (middle + 1) high
    else searchBetween before values low middle
  else low
termination_by high - low

/-- The number of leading elements with a property that no later element has. -/
def partitionPoint (before : Constant → Bool) (values : List Constant) : Nat :=
  searchBetween before values 0 values.length

/-- The share of rows whose value in a column lies between two bounds. -/
def rangeSelectivity (s : TableStatistics) (column : Nat) (lo hi : Constant) : Option Float :=
  s.columns[column]?.map fun values =>
    if s.count = 0 || hi.lt lo then 0.0
    else
      let start := partitionPoint (fun v => v.lt lo) values
      let stop := partitionPoint (fun v => v.le hi) values
      (stop - start).toFloat / s.count.toFloat

end TableStatistics

end RuleGrounding
