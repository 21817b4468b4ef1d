import RuleGrounding.Arithmetic.Expression
import RuleGrounding.Json.Record

/-!
# Terms and predicates in JSON
-/

namespace RuleGrounding

namespace Constant

/-- The constant as a tagged value. -/
def toJson : Constant → Json
  | integer n => .object [("Int", .integer n)]
  | text s => .object [("Str", .string s)]

/-- Read a constant. An integer has to fit 64 bits and to be written without fraction and
exponent. -/
def ofJson? (j : Json) : Option Constant :=
  match j.tagged? with
  | some ("Int", some (.integer n)) =>
    if -Int.pow 2 63 ≤ n ∧ n < Int.pow 2 63 then some (integer n) else none
  | some ("Str", some (.string s)) => some (text s)
  | _ => none

end Constant

namespace Term

/-- The term as a tagged value. -/
def toJson : Term → Json
  | var v => .object [("Variable", .string v.name)]
  | const c => .object [("Constant", c.toJson)]

/-- Read a term. -/
def ofJson? (j : Json) : Option Term :=
  match j.tagged? with
  | some ("Variable", some (.string name)) => some (var ⟨name⟩)
  | some ("Constant", some content) => (Constant.ofJson? content).map const
  | _ => none

end Term

namespace PredicateKind

/-- The kind as a tag, or as a tagged value. -/
def toJson : PredicateKind → Json
  | standard => .string "Standard"
  | functional builtin => .object [("Functional", .string builtin.name)]

/-- Read a kind. -/
def ofJson? (j : Json) : Option PredicateKind :=
  match j.tagged? with
  | some ("Functional", some content) =>
    (Json.named? Builtin.name Builtin.all content).map functional
  | _ => if j.bareTag? = some "Standard" then some standard else none

end PredicateKind

namespace Predicate

/-- The predicate as a record. -/
def toJson (p : Predicate) : Json :=
  .object [("name", .string p.name), ("arg_types", .array (p.argTypes.map fun t => .string t.name)),
    ("kind", p.kind.toJson)]

/-- Read a predicate, all of whose fields are required. -/
def ofJson? (j : Json) : Option Predicate :=
  match j.recordFields? ["name", "arg_types", "kind"] with
  | some [some name, some argTypes, some kind] => do
    let name ← name.toString?
    let argTypes ← (← argTypes.toList?).mapM (Json.named? ArgumentType.name [.integer, .text])
    let kind ← PredicateKind.ofJson? kind
    pure ⟨name, argTypes, kind⟩
  | _ => none

end Predicate

namespace Comparator

/-- The comparator as a tag. -/
def toJson (c : Comparator) : Json := .string c.name

/-- Read a comparator. -/
def ofJson? : Json → Option Comparator := Json.named? name all

end Comparator

end RuleGrounding
