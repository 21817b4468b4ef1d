import RuleGrounding.Arithmetic.Coefficient

/-!
# Linear expressions over atoms

An expression compares a linear combination of atoms with a number. An atom may
have summation variables among its arguments; it then stands for the sum of its
instances over their selection sets.
-/

namespace RuleGrounding

/-- An argument of a summation atom. -/
inductive SummationTerm where
  /-- An ordinary term. -/
  | plain (t : Term)
  /-- A summation variable. -/
  | sum (v : SummationVariable)
  deriving DecidableEq, Repr

namespace SummationTerm

/-- The argument with a summation variable read as an ordinary one. -/
def toTerm : SummationTerm → Term
  | plain t => t
  | sum v => .var v.plain

/-- The summation variable that the argument is, if it is one. -/
def summation? : SummationTerm → Option SummationVariable
  | plain _ => none
  | sum v => some v

/-- The ordinary variable that the argument is, if it is one. -/
def openVar? : SummationTerm → Option Variable
  | plain t => t.openVar?
  | sum _ => none

/-- The argument as it stands in the atom. -/
def toText : SummationTerm → String
  | plain t => t.toText
  | sum v => v.toText

end SummationTerm

/-- An atom whose arguments may be summation variables. -/
structure SummationAtom where
  /-- The relation. -/
  predicate : Predicate
  /-- The arguments. -/
  args : List SummationTerm
  deriving DecidableEq, Repr

namespace SummationAtom

/-- The atom in which summation variables are ordinary ones. -/
def queryAtom (a : SummationAtom) : Atom := ⟨a.predicate, a.args.map SummationTerm.toTerm⟩

/-- Build a summation atom, with the checks of an ordinary atom. -/
def make (predicate : Predicate) (args : List SummationTerm) : Except ModelFault SummationAtom :=
  (Atom.make predicate (args.map SummationTerm.toTerm)).map fun _ => ⟨predicate, args⟩

/-- The distinct summation variables in argument order. -/
def summationVariables (a : SummationAtom) : List SummationVariable :=
  distinct (a.args.filterMap SummationTerm.summation?)

/-- The distinct ordinary variables in argument order. -/
def vars (a : SummationAtom) : List Variable :=
  distinct (a.args.filterMap SummationTerm.openVar?)

/-- The summation atom as text. -/
def toText (a : SummationAtom) : String :=
  callText a.predicate.name (a.args.map SummationTerm.toText)

end SummationAtom

/-- The atom of a term of an expression. -/
inductive TermAtom where
  /-- An ordinary atom. -/
  | plain (a : Atom)
  /-- A summation atom. -/
  | sum (a : SummationAtom)
  deriving DecidableEq, Repr

namespace TermAtom

/-- The relation. -/
def predicate : TermAtom → Predicate
  | plain a => a.predicate
  | sum a => a.predicate

/-- The atom with which the rows of a rule are queried. -/
def queryAtom : TermAtom → Atom
  | plain a => a
  | sum a => a.queryAtom

/-- The distinct ordinary variables. -/
def vars : TermAtom → List Variable
  | plain a => a.vars
  | sum a => a.vars

/-- The distinct summation variables. -/
def summationVariables : TermAtom → List SummationVariable
  | plain _ => []
  | sum a => a.summationVariables

/-- The arguments, those of an ordinary atom being ordinary terms. -/
def args : TermAtom → List SummationTerm
  | plain a => a.args.map .plain
  | sum a => a.args

/-- The atom as text. -/
def toText : TermAtom → String
  | plain a => a.toText
  | sum a => a.toText

end TermAtom

/-- The relation between the two sides of an expression. -/
inductive Comparator where
  /-- Both sides are equal. -/
  | equal
  /-- The combination is at most the number. -/
  | lessOrEqual
  /-- The combination is at least the number. -/
  | greaterOrEqual
  deriving DecidableEq, Repr

namespace Comparator

/-- The sign of the relation. -/
def toText : Comparator → String
  | equal => "="
  | lessOrEqual => "<="
  | greaterOrEqual => ">="

/-- All relations. -/
def all : List Comparator := [equal, lessOrEqual, greaterOrEqual]

/-- The name of the relation in files. -/
def name : Comparator → String
  | equal => "Equal"
  | lessOrEqual => "LessOrEqual"
  | greaterOrEqual => "GreaterOrEqual"

end Comparator

/-- A coefficient with its atom. -/
structure ExpressionTerm where
  /-- The coefficient. -/
  coefficient : Coefficient
  /-- The atom. -/
  atom : TermAtom
  deriving Repr

/-- A linear combination of atoms compared with a number. -/
structure Expression where
  /-- The terms of the combination. -/
  terms : List ExpressionTerm
  /-- The relation. -/
  comparator : Comparator
  /-- The number on the right. -/
  constant : Coefficient
  deriving Repr

namespace Expression

/-- The distinct ordinary variables in the order of their first occurrence. -/
def vars (e : Expression) : List Variable :=
  distinct (e.terms.flatMap fun t => t.atom.vars)

/-- The distinct summation variables in the order of their first occurrence. -/
def summationVariables (e : Expression) : List SummationVariable :=
  distinct (e.terms.flatMap fun t => t.atom.summationVariables)

/-- The summation variables of the coefficients, then of the right side. -/
def cardinalities (e : Expression) : List SummationVariable :=
  e.terms.flatMap (fun t => t.coefficient.occurrences) ++ e.constant.occurrences

/-- Why an expression is refused: it has no terms, a summation variable is an ordinary variable
too, or a coefficient refers to a summation variable of no atom. -/
def fault? (e : Expression) : Option ModelFault :=
  if e.terms.isEmpty then some .emptyExpression
  else
    match e.summationVariables.find? fun v => v.plain ∈ e.vars with
    | some v => some (.summationClash v.plain.name)
    | none => (e.cardinalities.find? fun v => v ∉ e.summationVariables).map fun v =>
        .unknownSummationVariable v.plain.name

/-- Build an expression with its checks. -/
def make (terms : List ExpressionTerm) (comparator : Comparator) (constant : Coefficient) :
    Except ModelFault Expression :=
  let e : Expression := ⟨terms, comparator, constant⟩
  match e.fault? with
  | some fault => .error fault
  | none => .ok e

/-- The expression as text. -/
def toText (e : Expression) : String :=
  String.intercalate " + " (e.terms.map fun t => t.coefficient.toText ++ " * " ++ t.atom.toText) ++
    " " ++ e.comparator.toText ++ " " ++ e.constant.toText

end Expression

end RuleGrounding
