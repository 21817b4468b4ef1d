import RuleGrounding.Fault.Config
import RuleGrounding.Json.Record
import RuleGrounding.Store
import RuleGrounding.Toml.Printer
import RuleGrounding.Toml.Reader

/-!
# Configurations

The settings of a grounding session. They are kept as a TOML document, in which
every field may be missing and then has its default.
-/

namespace RuleGrounding

/-- The names of the partitions by role. -/
structure PartitionNames where
  /-- The partitions of evidence. -/
  read : List String
  /-- The partition of targets. -/
  write : String
  /-- The staging partition. -/
  lazy : String
  deriving DecidableEq, Repr

/-- The settings of a grounding session. -/
structure Config where
  /-- The value from which lazy atoms are activated. -/
  activationThreshold : Float
  /-- The value of an atom that is not stored. -/
  defaultValue : Float
  /-- The names of the partitions. -/
  partitions : PartitionNames

/-- The partition names that are taken where none are given. -/
def PartitionNames.standard : PartitionNames := ⟨["observations"], "targets", "lazy"⟩

namespace Config

/-- The settings that are taken where none are given. -/
def standard : Config := ⟨0.01, 0.0, .standard⟩

/-- Whether two configurations have the same numbers and the same names. -/
def agrees (a b : Config) : Bool :=
  a.activationThreshold == b.activationThreshold && a.defaultValue == b.defaultValue &&
    decide (a.partitions = b.partitions)

/-- Why the settings are refused: the threshold first, then the default value, then the names. -/
def fault? (c : Config) : Option ConfigFault :=
  let t := c.activationThreshold
  if !(decide (0.0 < t) && decide (t ≤ 1.0)) then
    some (.invalidValue "activation_threshold" (numberText t ++ " is outside (0, 1]"))
  else if !SoftValue.inUnit c.defaultValue then
    some (.invalidValue "default_value" (numberText c.defaultValue ++ " is outside [0, 1]"))
  else if c.partitions.read.isEmpty then
    some (.invalidValue "partitions.read" "at least one read partition is required")
  else none

/-- The settings if they are accepted. -/
def validate (c : Config) : Except ConfigFault Config :=
  match c.fault? with
  | some fault => .error fault
  | none => .ok c

/-- The layout of the named partitions, which are registered if they are new. -/
def layout (c : Config) (r : PartitionRegistry) :
    Except ConfigFault PartitionLayout × PartitionRegistry :=
  let (layout, r) :=
    PartitionLayout.named r c.partitions.read c.partitions.write c.partitions.lazy
  (layout.mapError fun fault => .invalidValue "partitions" fault.diagnosis.message, r)

/-- An empty store over the named partitions. -/
def store (c : Config) (r : PartitionRegistry) : Except ConfigFault Store × PartitionRegistry :=
  let (layout, r) := c.layout r
  (layout.map fun l => .empty l c.defaultValue, r)

/-- The settings as a TOML document. -/
def toToml (c : Config) : String :=
  "activation_threshold = " ++ Toml.floatText c.activationThreshold ++ "\n" ++
    "default_value = " ++ Toml.floatText c.defaultValue ++ "\n\n" ++ "[partitions]\n" ++
    "read = " ++ Toml.stringsText c.partitions.read ++ "\n" ++
    "write = " ++ Toml.quote c.partitions.write ++ "\n" ++
    "lazy = " ++ Toml.quote c.partitions.lazy ++ "\n"

end Config

namespace Toml

/-- The number that a value is; an integer is one too. -/
def toFloat? : Toml → Option Float
  | float x => some x
  | integer n => some (Decimal.toFloat ⟨decide (n < 0), n.natAbs, 0⟩)
  | _ => none

/-- The string that a value is. -/
def toString? : Toml → Option String
  | string s => some s
  | _ => none

/-- The strings of an array of strings. -/
def toStrings? : Toml → Option (List String)
  | array _ items => items.mapM toString?
  | _ => none

/-- The values of the named fields of a record. A record is a table, or an array of the field values
whose further items do not matter; a date or time is a record without fields. -/
def recordFields? (names : List String) : Toml → Option (List (Option Toml))
  | table _ entries => some (names.map fun name => valueAt? name entries)
  | array _ items => some ((List.range names.length).map fun i => items[i]?)
  | dateTime => some (names.map fun _ => none)
  | _ => none

/-- Read a field, or take the default if it is missing. -/
def readOr {α : Type} (default : α) (read : Toml → Option α) : Option Toml → Option α
  | none => some default
  | some v => read v

end Toml

namespace PartitionNames

/-- The names of the fields. -/
def fieldNames : List String := ["read", "write", "lazy"]

/-- Read partition names from TOML. -/
def ofToml? (v : Toml) : Option PartitionNames :=
  match v.recordFields? fieldNames with
  | some [read, write, lazy] => do
    pure ⟨← Toml.readOr standard.read Toml.toStrings? read,
      ← Toml.readOr standard.write Toml.toString? write,
      ← Toml.readOr standard.lazy Toml.toString? lazy⟩
  | _ => none

/-- Read partition names from JSON. -/
def ofJson? (j : Json) : Option PartitionNames :=
  match j.recordFields? fieldNames with
  | some [read, write, lazy] => do
    pure ⟨← Json.readOr standard.read Json.toStrings? read,
      ← Json.readOr standard.write Json.toString? write,
      ← Json.readOr standard.lazy Json.toString? lazy⟩
  | _ => none

/-- The partition names in JSON. -/
def toJson (names : PartitionNames) : Json :=
  .object [("read", .array (names.read.map .string)), ("write", .string names.write),
    ("lazy", .string names.lazy)]

end PartitionNames

namespace Config

/-- The names of the fields. -/
def fieldNames : List String := ["activation_threshold", "default_value", "partitions"]

/-- Read settings from a TOML document, without validating them. -/
def ofToml? (v : Toml) : Option Config :=
  match v.recordFields? fieldNames with
  | some [threshold, default, partitions] => do
    pure ⟨← Toml.readOr standard.activationThreshold Toml.toFloat? threshold,
      ← Toml.readOr standard.defaultValue Toml.toFloat? default,
      ← Toml.readOr standard.partitions PartitionNames.ofToml? partitions⟩
  | _ => none

/-- Read settings from JSON, without validating them. -/
def ofJson? (j : Json) : Option Config :=
  match j.recordFields? fieldNames with
  | some [threshold, default, partitions] => do
    pure ⟨← Json.readOr standard.activationThreshold Json.toFloat? threshold,
      ← Json.readOr standard.defaultValue Json.toFloat? default,
      ← Json.readOr standard.partitions PartitionNames.ofJson? partitions⟩
  | _ => none

/-- The settings in JSON. -/
def toJson (c : Config) : Json :=
  .object [("activation_threshold", .ofFloat c.activationThreshold),
    ("default_value", .ofFloat c.defaultValue), ("partitions", c.partitions.toJson)]

/-- Read and validate the text of a TOML document; the path names it in messages. -/
def parse (path text : String) : Except ConfigFault Config :=
  match (Toml.parse? text).bind ofToml? with
  | none => .error (.malformed path)
  | some c => c.validate

/-- Read and validate settings given as a text. -/
def ofText (text : String) : Except ConfigFault Config := parse "<string>" text

/-- Read and validate a file, given its content if it could be read. -/
def ofFile (path : String) (content? : Option String) : Except ConfigFault Config :=
  match content? with
  | none => .error (.unreadable path)
  | some text => parse path text

end Config

end RuleGrounding
