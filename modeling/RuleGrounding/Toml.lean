import RuleGrounding.Decimal.Layout

/-!
# TOML documents

A TOML document is a table. While it is built up from key-value pairs and
headers, a table remembers by what it came about, as that decides what may still
be added to it.
-/

namespace RuleGrounding

/-- By what a table came about. -/
inductive TableForm where
  /-- It is written between braces, and is complete. -/
  | inline
  /-- It has a header of its own. -/
  | header
  /-- It is named in the header of a table below it. -/
  | implied
  /-- It is named in a dotted key. -/
  | dotted
  deriving DecidableEq, Repr

/-- A TOML value. -/
inductive Toml where
  /-- A string. -/
  | string (value : String)
  /-- An integer. -/
  | integer (value : Int)
  /-- A floating-point number. -/
  | float (value : Float)
  /-- A truth value. -/
  | bool (value : Bool)
  /-- A date, a time, or both. -/
  | dateTime
  /-- An array; one that is made of headers may get further tables. -/
  | array (ofHeaders : Bool) (items : List Toml)
  /-- A table. -/
  | table (form : TableForm) (entries : List (String × Toml))
  deriving Repr

namespace Toml

/-- The value of a key among some entries. -/
def valueAt? (key : String) (entries : List (String × Toml)) : Option Toml :=
  (entries.find? fun e => e.1 = key).map Prod.snd

/-- Put a value under a key in place of what is there. -/
def setEntry (key : String) (value : Toml) : List (String × Toml) → List (String × Toml)
  | [] => [(key, value)]
  | e :: es => if e.1 = key then (key, value) :: es else e :: setEntry key value es

/-- A table while it is built up. -/
structure Table where
  /-- By what the table came about. -/
  form : TableForm
  /-- The entries so far. -/
  entries : List (String × Toml)

/-- The table as a value. -/
def ofTable (t : Table) : Toml := .table t.form t.entries

/-- Change the table at the end of a path, making the tables on the way that are missing. A path
leads through the last table of an array of tables, and through no other value. A dotted key must
not lead into a table that has a header or is written between braces. -/
def changeAt (dotted : Bool) (change : Table → Option Table) : List String → Table → Option Table
  | [], t => change t
  | key :: path, t =>
    let enter := fun (child : Table) =>
      (changeAt dotted change path child).map fun child =>
        { t with entries := setEntry key (ofTable child) t.entries }
    match valueAt? key t.entries with
    | none => enter ⟨if dotted then .dotted else .implied, []⟩
    | some (.table .inline _) => none
    | some (.table .header entries) => if dotted then none else enter ⟨.header, entries⟩
    | some (.table form entries) => enter ⟨form, entries⟩
    | some (.array true items) =>
      match items.getLast? with
      | some (.table form entries) =>
        (changeAt dotted change path ⟨form, entries⟩).map fun child =>
          { t with entries :=
              setEntry key (.array true (items.dropLast ++ [ofTable child])) t.entries }
      | _ => none
    | some _ => none

/-- Add a new key to a table. Behind a dotted key stands a table that dotted keys made. -/
def addEntry (isDotted : Bool) (key : String) (value : Toml) (t : Table) : Option Table :=
  if isDotted && decide (t.form ≠ .dotted) then none
  else if (valueAt? key t.entries).isSome then none
  else some { t with entries := t.entries ++ [(key, value)] }

/-- Split a key path into its tables and its last key. -/
def splitPath : List String → Option (List String × String)
  | [] => none
  | [key] => some ([], key)
  | key :: path => (splitPath path).map fun r => (key :: r.1, r.2)

/-- Add a value under a dotted key. -/
def addPair (path : List String) (value : Toml) (t : Table) : Option Table :=
  match splitPath path with
  | none => none
  | some (tables, key) => changeAt true (addEntry (!tables.isEmpty) key value) tables t

/-- Open the table of a header. It may be there already only because of headers of tables below. -/
def openTable (key : String) (t : Table) : Option Table :=
  match valueAt? key t.entries with
  | none => some { t with entries := t.entries ++ [(key, .table .header [])] }
  | some (.table .implied entries) =>
    some { t with entries := setEntry key (.table .header entries) t.entries }
  | some _ => none

/-- Open a further table of an array of tables. -/
def openArrayTable (key : String) (t : Table) : Option Table :=
  match valueAt? key t.entries with
  | none => some { t with entries := t.entries ++ [(key, .array true [.table .header []])] }
  | some (.array true items) =>
    some { t with entries := setEntry key (.array true (items ++ [.table .header []])) t.entries }
  | some _ => none

/-- A line of a document. -/
inductive Statement where
  /-- A dotted key with its value. -/
  | pair (path : List String) (value : Toml)
  /-- The header of a table. -/
  | header (path : List String)
  /-- The header of a further table of an array. -/
  | arrayHeader (path : List String)

/-- Build up a document line by line; pairs belong to the table of the last header. -/
def build : List String → Table → List Statement → Option Table
  | _, root, [] => some root
  | current, root, .pair path value :: rest =>
    (changeAt false (addPair path value) current root).bind fun root => build current root rest
  | _, root, .header path :: rest =>
    match splitPath path with
    | none => none
    | some (tables, key) =>
      (changeAt false (openTable key) tables root).bind fun root => build path root rest
  | _, root, .arrayHeader path :: rest =>
    match splitPath path with
    | none => none
    | some (tables, key) =>
      (changeAt false (openArrayTable key) tables root).bind fun root => build path root rest

/-- The table of a whole document. -/
def ofStatements (statements : List Statement) : Option Toml :=
  (build [] ⟨.header, []⟩ statements).map ofTable

/-- The table between braces that some pairs make up. -/
def ofPairs (pairs : List (List String × Toml)) : Option Toml :=
  (pairs.foldlM (fun t p => addPair p.1 p.2 t) ⟨.inline, []⟩).map ofTable

end Toml

end RuleGrounding
