import RuleGrounding.Term

/-!
# Predicates

A predicate is a named relation with a type for each argument. The atoms of a
standard predicate are stored; those of a functional predicate are computed from
their arguments and never stored.
-/

namespace RuleGrounding

/-- The declared type of an argument. -/
inductive ArgumentType where
  /-- Integers only. -/
  | integer
  /-- Texts only. -/
  | text
  deriving DecidableEq, Repr

namespace ArgumentType

/-- Whether a constant may stand in an argument of this type. -/
def accepts : ArgumentType → Constant → Bool
  | integer, .integer _ => true
  | text, .text _ => true
  | _, _ => false

/-- The name of the type in messages and files. -/
def name : ArgumentType → String
  | integer => "Integer"
  | text => "String"

end ArgumentType

/-- The built-in computed relations between two constants. -/
inductive Builtin where
  /-- Both constants are the same. -/
  | equal
  /-- The constants differ. -/
  | notEqual
  /-- The first constant comes before the second, so that only one of two symmetric groundings
  remains. -/
  | nonSymmetric
  deriving DecidableEq, Repr

namespace Builtin

/-- Whether the relation holds; with other than two arguments it never does. -/
def holds : Builtin → List Constant → Bool
  | equal, [a, b] => decide (a = b)
  | notEqual, [a, b] => decide (a ≠ b)
  | nonSymmetric, [a, b] => a.lt b
  | _, _ => false

/-- The truth value of the relation: one or zero. -/
def value (builtin : Builtin) (args : List Constant) : Float :=
  if builtin.holds args then 1.0 else 0.0

/-- The name of the relation without its mark. -/
def name : Builtin → String
  | equal => "Equal"
  | notEqual => "NotEqual"
  | nonSymmetric => "NonSymmetric"

/-- All built-in relations. -/
def all : List Builtin := [equal, notEqual, nonSymmetric]

end Builtin

/-- Whether a predicate's atoms are stored or computed. -/
inductive PredicateKind where
  /-- Stored. -/
  | standard
  /-- Computed by a built-in relation. -/
  | functional (builtin : Builtin)
  deriving DecidableEq, Repr

/-- A named relation. Two predicates are the same if name, argument types and kind agree. -/
structure Predicate where
  /-- The relation's name. -/
  name : String
  /-- The types of the arguments. -/
  argTypes : List ArgumentType
  /-- Whether atoms are stored or computed. -/
  kind : PredicateKind
  deriving DecidableEq, Repr

namespace Predicate

/-- A stored predicate. -/
def standard (name : String) (argTypes : List ArgumentType) : Predicate :=
  ⟨name, argTypes, .standard⟩

/-- A built-in predicate over two arguments of one type. -/
def ofBuiltin (builtin : Builtin) (argType : ArgumentType) : Predicate :=
  ⟨"#" ++ builtin.name, [argType, argType], .functional builtin⟩

/-- The number of arguments. -/
def arity (p : Predicate) : Nat := p.argTypes.length

/-- Whether atoms of the predicate are stored. -/
def isStandard (p : Predicate) : Bool := p.kind = .standard

end Predicate

end RuleGrounding
