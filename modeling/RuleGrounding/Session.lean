import RuleGrounding.Grounding.Rules

/-!
# Sessions

A session is a store of atoms together with what is built over it: the manager
that resolves atoms and the ground rules produced so far. What is written to the
store later does not reach atoms that are already resolved.
-/

namespace RuleGrounding

/-- The store together with what grounding works on. -/
structure Session where
  /-- The stored atoms. -/
  store : Store
  /-- The manager and the ground rules. -/
  work : Workspace

namespace Session

/-- A session over a store, with nothing resolved and no ground rules. -/
def start (store : Store) (policy : Policy) : Session := ⟨store, ⟨.fresh policy, []⟩⟩

/-- The manager of the session. -/
def manager (x : Session) : Manager := x.work.manager

/-- The instances given out in the session. -/
def pool (x : Session) : AtomPool := x.work.manager.pool

/-- An instance as it is seen now. -/
def view (x : Session) (h : Handle) : GroundAtom := x.manager.view h

/-- Go on with another manager. -/
def withManager (x : Session) (manager : Manager) : Session :=
  { x with work := { x.work with manager } }

/-- Forget what is resolved; handles stay valid, and so do the store and the ground rules. -/
def renew (x : Session) (policy : Policy) : Session := x.withManager (x.manager.renew policy)

/-- The instance of a predicate with constants. -/
def resolve (x : Session) (predicate : Predicate) (args : List Constant) :
    Except LookupFault (Handle × Session) :=
  (x.manager.resolve x.store predicate args).map fun r => (r.1, x.withManager r.2)

/-- Give an instance a truth value. -/
def setValue (x : Session) (h : Handle) (value : Float) : Session :=
  x.withManager (x.manager.setValue h value)

/-- Store an atom. -/
def insert (x : Session) (k : GroundKey) (value : Float) (p : PartitionId) :
    Except StoreFault Session :=
  (x.store.insert k value p).map fun store => { x with store }

/-- Store instances with their present values, all of them or none. -/
def commit (x : Session) (atoms : List Handle) (p : PartitionId) : Except StoreFault Session :=
  (x.store.commit (atoms.map fun h => (h.key, x.pool.value h)) p).map fun store =>
    { x with store }

/-- Move the stored atoms of a predicate from a partition into the write partition, and count
them. -/
def moveToWrite (x : Session) (predicate : Predicate) (source : PartitionId) :
    Except StoreFault (Nat × Session) :=
  (x.store.moveToWrite predicate source).map fun r => (r.1, { x with store := r.2 })

/-- Add a ground rule that was made by hand. -/
def addGroundRule (x : Session) (g : GroundRule) : Session :=
  { x with work := { x.work with rules := x.work.rules ++ [g] } }

/-- Run a grounding step over the store. -/
def run {α : Type} (x : Session) (step : Store → Grounding α) :
    Except GroundingFault α × Session :=
  let (result, work) := (step x.store).runOn x.work
  (result, { x with work })

end Session

end RuleGrounding
