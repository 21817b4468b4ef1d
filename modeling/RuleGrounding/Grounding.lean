import RuleGrounding.GroundRule
import RuleGrounding.Manager
import RuleGrounding.Query.Evaluation

/-!
# Grounding steps

Grounding reads the store and works on a manager and on the list of ground rules
produced so far. A step that fails leaves the work done before it.
-/

namespace RuleGrounding

/-- What grounding works on. -/
structure Workspace where
  /-- The manager that resolves atoms. -/
  manager : Manager
  /-- The ground rules produced so far. -/
  rules : List GroundRule

/-- A grounding step: it may fail, and it leaves a workspace in any case. -/
abbrev Grounding := ExceptT GroundingFault (StateM Workspace)

namespace Grounding

/-- Run a step on a workspace. -/
def runOn {α : Type} (step : Grounding α) (w : Workspace) :
    Except GroundingFault α × Workspace :=
  StateT.run (ExceptT.run step) w

/-- Evaluate a query. -/
def query (s : Store) (q : Query) : Grounding ResultList :=
  match q.evaluate s with
  | .error fault => throw (.query fault)
  | .ok r => pure r

/-- Resolve an atom. -/
def resolve (s : Store) (predicate : Predicate) (args : List Constant) : Grounding Handle := do
  let w ← get
  match w.manager.resolve s predicate args with
  | .error fault => throw (.lookup fault)
  | .ok (h, manager) =>
    set { w with manager }
    pure h

/-- The value of an instance. -/
def valueOf (h : Handle) : Grounding Float := do
  let w ← get
  pure (w.manager.pool.value h)

/-- Produce a ground rule. -/
def emit (g : GroundRule) : Grounding Unit :=
  modify fun w => { w with rules := w.rules ++ [g] }

end Grounding

end RuleGrounding
