import RuleGrounding.GroundRule
import RuleGrounding.Json.Printer
import RuleGrounding.Json.Reader
import RuleGrounding.Json.Record

/-!
# Ground rules in JSON

Ground rules are exported with the values that their atoms have at that time,
names and arguments as text. The records can be read from such a text.
-/

namespace RuleGrounding

/-- An exported ground atom. -/
structure AtomRecord where
  /-- The name of the relation. -/
  predicate : String
  /-- The arguments as text. -/
  args : List String
  /-- The truth value. -/
  value : Float
  /-- Where the atom lives, as text. -/
  state : String

/-- An exported ground rule. -/
inductive RuleRecord where
  /-- A ground clause. -/
  | logical (rule : String) (weight : Option Float) (positive negative : List AtomRecord)
  /-- A ground constraint. -/
  | arithmetic (rule : String) (weight : Option Float) (coefficients : List Float)
      (atoms : List AtomRecord) (comparator : String) (constant : Float)

namespace AtomRecord

/-- The record of a ground atom. -/
def ofGroundAtom (a : GroundAtom) : AtomRecord where
  predicate := a.key.predicate.name
  args := a.key.args.map Constant.toText
  value := a.value
  state := a.state.toText

/-- The record in JSON. -/
def toJson (a : AtomRecord) : Json :=
  .object [("predicate", .string a.predicate), ("args", .array (a.args.map .string)),
    ("value", .ofFloat a.value), ("state", .string a.state)]

/-- Read a record, all of whose fields are required. -/
def ofJson? (j : Json) : Option AtomRecord :=
  match j.recordFields? ["predicate", "args", "value", "state"] with
  | some [some predicate, some args, some value, some state] => do
    pure ⟨← predicate.toString?, ← args.toStrings?, ← value.toFloat?, ← state.toString?⟩
  | _ => none

/-- Read an array of records. -/
def listOfJson? (j : Json) : Option (List AtomRecord) := j.toList?.bind (·.mapM ofJson?)

end AtomRecord

namespace RuleRecord

/-- The record of a ground rule at the current values of its atoms. -/
def ofGroundRule (pool : AtomPool) : GroundRule → RuleRecord
  | .logical g =>
    let record := fun h => AtomRecord.ofGroundAtom (pool.view h)
    logical g.rule g.weight (g.positive.map record) (g.negative.map record)
  | .arithmetic g =>
    arithmetic g.rule g.weight g.coefficients
      (g.atoms.map fun h => AtomRecord.ofGroundAtom (pool.view h)) g.comparator.toText g.constant

/-- A weight in JSON; a hard rule has the weight null. -/
def weightJson (weight : Option Float) : Json := (weight.map Json.ofFloat).getD .null

/-- The record in JSON, its kind in front. -/
def toJson : RuleRecord → Json
  | logical rule weight positive negative =>
    .object [("kind", .string "logical"), ("rule", .string rule), ("weight", weightJson weight),
      ("positive", .array (positive.map AtomRecord.toJson)),
      ("negative", .array (negative.map AtomRecord.toJson))]
  | arithmetic rule weight coefficients atoms comparator constant =>
    .object [("kind", .string "arithmetic"), ("rule", .string rule), ("weight", weightJson weight),
      ("coefficients", .array (coefficients.map Json.ofFloat)),
      ("atoms", .array (atoms.map AtomRecord.toJson)), ("comparator", .string comparator),
      ("constant", .ofFloat constant)]

/-- Read a weight; null and a missing field are no weight. -/
def weightOfJson? : Option Json → Option (Option Float)
  | none => some none
  | some .null => some none
  | some j => j.toFloat?.map some

/-- Read a ground clause behind its kind. -/
def logicalOfJson? (j : Json) : Option RuleRecord :=
  match j.recordFields? ["rule", "weight", "positive", "negative"] with
  | some [some rule, weight, some positive, some negative] => do
    pure (logical (← rule.toString?) (← weightOfJson? weight)
      (← AtomRecord.listOfJson? positive) (← AtomRecord.listOfJson? negative))
  | _ => none

/-- Read a ground constraint behind its kind. -/
def arithmeticOfJson? (j : Json) : Option RuleRecord :=
  match j.recordFields? ["rule", "weight", "coefficients", "atoms", "comparator", "constant"] with
  | some [some rule, weight, some coefficients, some atoms, some comparator, some constant] => do
    pure (arithmetic (← rule.toString?) (← weightOfJson? weight) (← coefficients.toFloats?)
      (← AtomRecord.listOfJson? atoms) (← comparator.toString?) (← constant.toFloat?))
  | _ => none

/-- Split a record into its kind and the rest: the kind is the one field of that name, or the
first item. -/
def splitKind? : Json → Option (String × Json)
  | .object fields =>
    match fields.filter fun f => f.1 = "kind" with
    | [(_, .string kind)] => some (kind, .object (fields.filter fun f => f.1 ≠ "kind"))
    | _ => none
  | .array (.string kind :: items) => some (kind, .array items)
  | _ => none

/-- The greatest depth to which an exported rule may be nested. -/
def depthLimit : Nat := 127

/-- Read a ground rule. -/
def ofJson? (j : Json) : Option RuleRecord :=
  if j.isBounded depthLimit then
    match splitKind? j with
    | some ("logical", rest) => logicalOfJson? rest
    | some ("arithmetic", rest) => arithmeticOfJson? rest
    | _ => none
  else none

end RuleRecord

/-- All ground rules as a JSON text over several lines. -/
def exportText (pool : AtomPool) (rules : List GroundRule) : String :=
  (Json.array (rules.map fun g => (RuleRecord.ofGroundRule pool g).toJson)).pretty

end RuleGrounding
