/-!
# Cross products

All tuples with one element from each of several lists, enumerated by a cursor
per position of which the last moves fastest. So no more than the cursor is kept,
however many tuples there are.
-/

namespace RuleGrounding

/-- An enumeration of tuples under way. -/
structure CrossProduct (α : Type) where
  /-- The elements for each position. -/
  domains : List (List α)
  /-- The index of the next tuple's element at each position. -/
  cursor : List Nat
  /-- Whether there is no next tuple. -/
  exhausted : Bool

namespace CrossProduct

variable {α : Type}

/-- The enumeration at its start; without elements for some position there are no tuples. -/
def ofDomains (domains : List (List α)) : CrossProduct α :=
  ⟨domains, domains.map fun _ => 0, domains.any List.isEmpty⟩

/-- The number of tuples of some domains. -/
def count (domains : List (List α)) : Nat := domains.foldl (fun acc d => acc * d.length) 1

/-- The largest size that is told. -/
def sizeLimit : Nat := Nat.pow 2 64 - 1

/-- The number of tuples, in which every partial product is cut off at the limit. -/
def size (c : CrossProduct α) : Nat :=
  c.domains.foldl (fun acc d => Nat.min (acc * d.length) sizeLimit) 1

/-- The cursor after one step, and whether it has come around to the start. -/
def step : List Nat → List (List α) → List Nat × Bool
  | i :: cursor, d :: domains =>
    match step cursor domains with
    | (rest, false) => (i :: rest, false)
    | (rest, true) => if i + 1 < d.length then ((i + 1) :: rest, false) else (0 :: rest, true)
  | _, _ => ([], true)

/-- The tuple at the cursor. -/
def tuple (c : CrossProduct α) : List α :=
  (c.cursor.zip c.domains).filterMap fun e => e.2[e.1]?

/-- The next tuple and the enumeration behind it. -/
def next? (c : CrossProduct α) : Option (List α × CrossProduct α) :=
  if c.exhausted then none
  else
    let moved := step c.cursor c.domains
    some (c.tuple, { c with cursor := moved.1, exhausted := moved.2 })

/-- The next tuples, at most the given number, and the enumeration behind them. -/
def take : Nat → CrossProduct α → List (List α) × CrossProduct α
  | 0, c => ([], c)
  | n + 1, c =>
    match c.next? with
    | none => ([], c)
    | some (tuple, c) =>
      let (tuples, c) := take n c
      (tuple :: tuples, c)

/-- All tuples of some domains. -/
def tuples (domains : List (List α)) : List (List α) :=
  (take (count domains) (ofDomains domains)).1

end CrossProduct

end RuleGrounding
