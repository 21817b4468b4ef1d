import RuleGrounding.Predicate
import RuleGrounding.Fault.Model

/-!
# Atoms and ground keys

An atom is a predicate applied to terms. A ground key is a predicate applied to
constants of the right number and types; it is the identity of a ground atom.
-/

namespace RuleGrounding

/-- A predicate name with its arguments in parentheses. -/
def callText (name : String) (args : List String) : String :=
  name ++ "(" ++ String.intercalate ", " args ++ ")"

namespace Predicate

/-- The arity fault of an argument list, if it has the wrong length. -/
def arityFault? (p : Predicate) (actual : Nat) : Option ModelFault :=
  if p.arity = actual then none else some (.arity p.name p.arity actual)

/-- The first argument that is a constant of another type than declared. Arguments that are not
constants yet are `none`. -/
def typeFault? (p : Predicate) (position : Nat) :
    List (Option Constant) → List ArgumentType → Option ModelFault
  | some c :: args, t :: types =>
    if t.accepts c then typeFault? p (position + 1) args types
    else some (.argumentType p.name position t.name c.toText)
  | none :: args, _ :: types => typeFault? p (position + 1) args types
  | _, _ => none

/-- Why an argument list is refused: its length first, then its first ill-typed constant. -/
def fault? (p : Predicate) (args : List (Option Constant)) : Option ModelFault :=
  p.arityFault? args.length <|> p.typeFault? 0 args p.argTypes

end Predicate

/-- A predicate applied to terms. -/
structure Atom where
  /-- The relation. -/
  predicate : Predicate
  /-- The arguments. -/
  args : List Term
  deriving DecidableEq, Repr

namespace Atom

/-- Build an atom, checking the number of arguments and the type of every constant. -/
def make (predicate : Predicate) (args : List Term) : Except ModelFault Atom :=
  match predicate.fault? (args.map Term.constant?) with
  | some fault => .error fault
  | none => .ok ⟨predicate, args⟩

/-- The distinct variables in argument order. -/
def vars (a : Atom) : List Variable := distinct (a.args.filterMap Term.openVar?)

/-- Whether every argument is a constant. -/
def isGround (a : Atom) : Bool := a.args.all fun t => t.constant?.isSome

/-- Replace every variable that has a constant by it; the others stay. -/
def bind (a : Atom) (θ : Assignment) : Atom :=
  { a with args := a.args.map fun t => ((t.value? θ).map Term.const).getD t }

/-- The constants that a list of terms stands for, or the first variable without one. -/
def instantiate (θ : Assignment) : List Term → Except Variable (List Constant)
  | [] => .ok []
  | .const c :: ts => (instantiate θ ts).map (c :: ·)
  | .var v :: ts =>
    match θ.find? v with
    | some c => (instantiate θ ts).map (c :: ·)
    | none => .error v

/-- The constant arguments of the atom under an assignment, or the first unbound variable. -/
def groundArgs (a : Atom) (θ : Assignment) : Except Variable (List Constant) :=
  instantiate θ a.args

/-- The atom as text. -/
def toText (a : Atom) : String := callText a.predicate.name (a.args.map Term.toText)

end Atom

/-- The identity of a ground atom: a predicate and constants that fit its arguments. -/
structure GroundKey where
  /-- The relation. -/
  predicate : Predicate
  /-- The constants. -/
  args : List Constant
  /-- Number and types of the constants are as declared. -/
  fits : predicate.fault? (args.map some) = none
  deriving DecidableEq

namespace GroundKey

/-- Build a key, checking the number and the types of the constants. -/
def make (predicate : Predicate) (args : List Constant) : Except ModelFault GroundKey :=
  match h : predicate.fault? (args.map some) with
  | some fault => .error fault
  | none => .ok ⟨predicate, args, h⟩

/-- The ground atom as text. -/
def toText (k : GroundKey) : String := callText k.predicate.name (k.args.map Constant.toText)

/-- A key that is built has the given predicate and constants. -/
theorem make_eq_ok {p : Predicate} {args : List Constant} {k : GroundKey}
    (h : make p args = .ok k) : k.predicate = p ∧ k.args = args := by
  unfold make at h
  split at h
  · cases h
  · cases h
    exact ⟨rfl, rfl⟩

/-- Building the key of a key's own parts gives it back. -/
@[simp] theorem make_self (k : GroundKey) : make k.predicate k.args = .ok k := by
  unfold make
  split
  · rename_i fault h
    rw [k.fits] at h
    cases h
  · rfl

end GroundKey

/-- An atom with its truth required or denied. -/
structure Literal where
  /-- The atom. -/
  atom : Atom
  /-- Whether the atom is denied. -/
  negated : Bool
  deriving DecidableEq, Repr

namespace Literal

/-- The literal that requires an atom. -/
def positive (a : Atom) : Literal := ⟨a, false⟩

/-- The literal that denies an atom. -/
def negative (a : Atom) : Literal := ⟨a, true⟩

/-- Whether the literal requires an atom of a stored predicate; only such literals bind
variables. -/
def generates (l : Literal) : Bool := !l.negated && l.atom.predicate.isStandard

/-- The literal as text. -/
def toText (l : Literal) : String := (if l.negated then "~" else "") ++ l.atom.toText

end Literal

end RuleGrounding
