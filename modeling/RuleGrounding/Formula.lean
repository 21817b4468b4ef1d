import RuleGrounding.Atom

/-!
# Formulas

Quantifier-free formulas over atoms. The connectives take lists, as rules are
written with them; the checked constructors refuse the empty list.
-/

namespace RuleGrounding

/-- A quantifier-free formula. -/
inductive Formula where
  /-- An atom. -/
  | atom (a : Atom)
  /-- The negation of a formula. -/
  | negation (f : Formula)
  /-- All of the formulas. -/
  | conjunction (fs : List Formula)
  /-- Some of the formulas. -/
  | disjunction (fs : List Formula)

namespace Formula

/-- All of at least one formula. -/
def and (fs : List Formula) : Except ModelFault Formula :=
  if fs.isEmpty then .error (.emptyConnective "conjunction") else .ok (.conjunction fs)

/-- Some of at least one formula. -/
def or (fs : List Formula) : Except ModelFault Formula :=
  if fs.isEmpty then .error (.emptyConnective "disjunction") else .ok (.disjunction fs)

/-- The head holds if the body does. -/
def implies (body head : Formula) : Formula := .disjunction [.negation body, head]

mutual

/-- The atoms of a formula from left to right, with repetitions. -/
def occurrences : Formula → List Atom
  | .atom a => [a]
  | .negation f => f.occurrences
  | .conjunction fs => listOccurrences fs
  | .disjunction fs => listOccurrences fs

/-- The atoms of several formulas from left to right, with repetitions. -/
def listOccurrences : List Formula → List Atom
  | [] => []
  | f :: fs => f.occurrences ++ listOccurrences fs

end

/-- The distinct atoms in the order of their first occurrence. -/
def atoms (f : Formula) : List Atom := distinct f.occurrences

/-- The distinct variables in the order of their first occurrence. -/
def vars (f : Formula) : List Variable := distinct (f.atoms.flatMap Atom.vars)

mutual

/-- The formula as text, every connective in parentheses. -/
def toText : Formula → String
  | .atom a => a.toText
  | .negation f => "~(" ++ f.toText ++ ")"
  | .conjunction fs => "(" ++ String.intercalate " & " (listTexts fs) ++ ")"
  | .disjunction fs => "(" ++ String.intercalate " | " (listTexts fs) ++ ")"

/-- The texts of several formulas. -/
def listTexts : List Formula → List String
  | [] => []
  | f :: fs => f.toText :: listTexts fs

end

end Formula

end RuleGrounding
