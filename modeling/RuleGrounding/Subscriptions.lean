import RuleGrounding.OrderedSet
import RuleGrounding.Rule

/-!
# Subscriptions

Which rules care about new atoms of which predicates. A logical rule subscribes
to the standard predicates of its body; arithmetic rules do not subscribe.
-/

namespace RuleGrounding

/-- The indices of the rules subscribed to each predicate, in ascending order. -/
structure Subscriptions where
  /-- The subscribers of each predicate. -/
  byPredicate : FiniteMap Predicate (List Nat)

namespace Subscriptions

/-- No subscriptions. -/
def empty : Subscriptions := ⟨∅⟩

/-- Subscribe a rule to a predicate. -/
def subscribe (s : Subscriptions) (predicate : Predicate) (rule : Nat) : Subscriptions :=
  ⟨s.byPredicate.insert predicate
    (OrderedSet.insert Nat.ble rule ((s.byPredicate.find? predicate).getD []))⟩

/-- Subscribe a rule to the predicates that it cares about. -/
def register (s : Subscriptions) (rule : Nat) : Rule → Subscriptions
  | .logical r => r.queryPredicates.foldl (fun s p => s.subscribe p rule) s
  | .arithmetic _ => s

/-- Subscribe rules from an index on. -/
def registerFrom (s : Subscriptions) : Nat → List Rule → Subscriptions
  | _, [] => s
  | index, r :: rs => (s.register index r).registerFrom (index + 1) rs

/-- The subscriptions of all rules of a rule base. -/
def ofRules (b : RuleBase) : Subscriptions := empty.registerFrom 0 b.rules

/-- The rules subscribed to any of some predicates, in ascending order. -/
def rulesFor (s : Subscriptions) (predicates : List Predicate) : List Nat :=
  predicates.foldl
    (fun acc p => OrderedSet.insertAll Nat.ble ((s.byPredicate.find? p).getD []) acc) []

/-- Whether no predicate has a subscriber. -/
def isEmpty (s : Subscriptions) : Bool := s.byPredicate.isEmpty

end Subscriptions

end RuleGrounding
