import RuleGrounding.Session
import RuleGrounding.Subscriptions
import RuleGrounding.Text.Ascending

/-!
# Activating lazy atoms

Lazy atoms whose value has reached the threshold become real in five stages:
they are stored in the lazy partition, taken over into the resolved atoms, the
rules that query their predicates are looked up, these rules are grounded for
the answers that involve a staged atom, and the staged atoms move on into the
write partition. A stage that fails leaves what the stages before it did.
-/

namespace RuleGrounding

namespace LogicalRule

/-- The queries for the answers that involve a staged atom: one for each body literal over one of
the predicates, with that literal as the lazy target. -/
def stagedQueries (r : LogicalRule) (predicates : List Predicate) : List Query :=
  (((List.range r.query.length).zip r.query).filter fun e =>
    decide (e.2.atom.predicate ∈ predicates)).map fun e => r.groundingQuery.target e.1

/-- Ground the rule for the answers that involve a staged atom of one of the predicates. -/
def groundStaged (r : LogicalRule) (s : Store) (predicates : List Predicate) (w : Workspace) :
    Except ActivationFault Nat × Workspace :=
  let queries := r.stagedQueries predicates
  if queries.isEmpty then (.error (.noLazyTargets r.name), w)
  else
    match Query.evaluateUnion s queries with
    | .error fault => (.error (.query fault), w)
    | .ok results =>
      let (result, w) := (r.groundResults s results).runOn w
      (result.mapError .grounding, w)

end LogicalRule

namespace RuleBase

/-- Ground the logical rules with the given indices for staged atoms, stopping at the first that
fails. -/
def groundStaged (b : RuleBase) (s : Store) (predicates : List Predicate) :
    List Nat → Workspace → Except ActivationFault Nat × Workspace
  | [], w => (.ok 0, w)
  | index :: rest, w =>
    match b.rules[index]? with
    | some (.logical r) =>
      match r.groundStaged s predicates w with
      | (.error fault, w) => (.error fault, w)
      | (.ok n, w) =>
        match b.groundStaged s predicates rest w with
        | (.error fault, w) => (.error fault, w)
        | (.ok m, w) => (.ok (n + m), w)
    | _ => b.groundStaged s predicates rest w

end RuleBase

namespace Session

/-- The lazy atoms whose value has reached a threshold, ordered by their text. -/
def eligible (x : Session) (threshold : Float) : List Handle :=
  ascending (fun h => h.key.toText)
    (x.manager.lazy.values.filter fun h => decide (threshold ≤ x.pool.value h))

/-- Move the staged atoms of some predicates into the write partition, and say so of their
instances. -/
def unstage (x : Session) : List Predicate → Except ActivationFault Unit × Session
  | [] => (.ok (), x)
  | p :: ps =>
    match x.moveToWrite p x.store.layout.lazy with
    | .error fault => (.error (.store fault), x)
    | .ok (_, moved) =>
      unstage (moved.withManager
        (moved.manager.promote p x.store.layout.lazy x.store.layout.write)) ps

/-- Store the given lazy atoms in the lazy partition and take them over into the resolved ones. -/
def stage (x : Session) (atoms : List Handle) : Except ActivationFault Session :=
  let lazy := x.store.layout.lazy
  match x.commit atoms lazy with
  | .error fault => .error (.store fault)
  | .ok stored => .ok (stored.withManager (stored.manager.adopt atoms (.unobserved lazy)))

/-- Make the given lazy atoms real. -/
def activateAtoms (x : Session) (b : RuleBase) (atoms : List Handle) :
    Except ActivationFault Unit × Session :=
  match x.stage atoms with
  | .error fault => (.error fault, x)
  | .ok staged =>
    let predicates :=
      distinct ((atoms.map fun h => h.key.predicate).filter Predicate.isStandard)
    match b.groundStaged staged.store predicates ((Subscriptions.ofRules b).rulesFor predicates)
        staged.work with
    | (.error fault, w) => (.error fault, { staged with work := w })
    | (.ok _, w) => unstage { staged with work := w } predicates

/-- Activate every lazy atom whose value has reached the manager's threshold, and count them. A
strict manager has no lazy atoms. -/
def activate (x : Session) (b : RuleBase) : Except ActivationFault Nat × Session :=
  match x.manager.policy.threshold? with
  | none => (.ok 0, x)
  | some threshold =>
    let atoms := x.eligible threshold
    if atoms.isEmpty then (.ok 0, x)
    else
      let (result, x) := x.activateAtoms b atoms
      (result.map fun _ => atoms.length, x)

end Session

end RuleGrounding
