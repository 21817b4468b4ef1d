import RuleGrounding.Fault

/-!
# Faults of queries

Why a query is refused. Whether it is does not depend on what is stored.
-/

namespace RuleGrounding

/-- Why a query is refused. -/
inductive QueryFault where
  /-- A filter has a variable that nothing binds. -/
  | unboundVariable (name literal : String)
  /-- A projected variable is neither in the literals nor pinned. -/
  | unknownProjection (name : String)
  /-- The lazy target is not a positive standard literal of the query. -/
  | lazyTarget (index length : Nat)
  /-- The union of no queries has no columns. -/
  | emptyUnion
  deriving DecidableEq, Repr

namespace QueryFault

/-- What is said about a refused query. -/
def diagnosis : QueryFault → Diagnosis
  | unboundVariable name literal => {
      code := "query::unbound"
      message := s!"variable {name} is unbound when evaluating {literal}"
      help := "Negated literals and functional predicates are filters: every variable they " ++
        "mention must be bound by a positive standard atom of the same query." }
  | unknownProjection name => {
      code := "query::unknown_projection"
      message := s!"projected variable {name} does not occur in the query formula"
      help :=
        "Project only variables that appear in the formula or in the partial grounding." }
  | lazyTarget index length => {
      code := "query::lazy_target"
      message := s!"lazy target index {index} out of range for a query of {length} literals"
      help := "The lazy target must point at a positive literal of the query." }
  | emptyUnion => {
      code := "query::empty_union"
      message := "union of zero queries"
      help := "Pass at least one query to execute_union." }

end QueryFault

end RuleGrounding
