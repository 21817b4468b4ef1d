/-!
# Diagnoses

Each area of the library has its own type of faults. A fault is a cause; its
diagnosis is what is said about it.
-/

namespace RuleGrounding

/-- What is said about a fault. -/
structure Diagnosis where
  /-- A stable name of the cause: the area and the kind. -/
  code : String
  /-- What went wrong, with the particulars. -/
  message : String
  /-- What to do about it. -/
  help : String
  deriving DecidableEq, Repr

end RuleGrounding
