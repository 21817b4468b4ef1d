import RuleGrounding.Fault.Grounding
import RuleGrounding.Store

/-!
# Atom managers

A manager resolves a predicate and constants to one shared instance and gives
out the same instance ever after. What is not stored is refused by a strict
manager; a deferring manager keeps it as a lazy atom with the store's default
value, to be activated later.
-/

namespace RuleGrounding

/-- What a manager does with an atom that is not stored. -/
inductive Policy where
  /-- Refuse it. -/
  | strict
  /-- Keep it as a lazy atom, which is activated once its value reaches the threshold. -/
  | deferring (threshold : Float)

namespace Policy

/-- A deferring policy; its threshold has to be above zero and at most one. -/
def defer (threshold : Float) : Except ActivationFault Policy :=
  if decide (0.0 < threshold) && decide (threshold ≤ 1.0) then .ok (.deferring threshold)
  else .error (.invalidThreshold threshold)

/-- The threshold from which a lazy atom is activated, if there are lazy atoms. -/
def threshold? : Policy → Option Float
  | strict => none
  | deferring threshold => some threshold

end Policy

/-- What a store knows of an atom. -/
inductive StoreView where
  /-- The atom is stored, or computed. -/
  | present (atom : GroundAtom)
  /-- The atom is not stored; if it is deferred, this is what it becomes. -/
  | absent (atom : GroundAtom)

/-- What the store knows of an atom: functional atoms are computed, stored atoms are observed in
read partitions and unobserved elsewhere. -/
def Store.look (s : Store) (k : GroundKey) : StoreView :=
  match k.predicate.kind with
  | .functional builtin => .present ⟨k, builtin.value k.args, .computed⟩
  | .standard =>
    match s.get? k with
    | some stored =>
      .present ⟨k, stored.value,
        if s.layout.isRead stored.partition then .observed stored.partition
        else .unobserved stored.partition⟩
    | none => .absent ⟨k, s.defaultValue, .lazy⟩

/-- Resolved atoms and lazy atoms, with the pool of all instances. -/
structure Manager where
  /-- What is done with atoms that are not stored. -/
  policy : Policy
  /-- The instances given out so far. -/
  pool : AtomPool
  /-- The resolved atoms. -/
  known : FiniteMap GroundKey Handle
  /-- The atoms that are not stored yet. -/
  lazy : FiniteMap GroundKey Handle

namespace Manager

/-- A manager that has resolved nothing. -/
def fresh (policy : Policy) : Manager := ⟨policy, .empty, ∅, ∅⟩

/-- A manager that has resolved nothing, over the instances of another; handles of that one stay
valid. -/
def renew (m : Manager) (policy : Policy) : Manager := ⟨policy, m.pool, ∅, ∅⟩

/-- Add a new instance to the resolved atoms. -/
def learn (m : Manager) (atom : GroundAtom) : Handle × Manager :=
  let (h, pool) := m.pool.allocate atom
  (h, { m with pool, known := m.known.insert atom.key h })

/-- Add a new instance to the lazy atoms. -/
def postpone (m : Manager) (atom : GroundAtom) : Handle × Manager :=
  let (h, pool) := m.pool.allocate atom
  (h, { m with pool, lazy := m.lazy.insert atom.key h })

/-- The instance of a key: a lazy atom, a resolved atom, or a new instance made after what the
store knows. -/
def resolveKey (m : Manager) (s : Store) (k : GroundKey) : Except LookupFault (Handle × Manager) :=
  match m.lazy.find? k with
  | some h => .ok (h, m)
  | none =>
    match m.known.find? k with
    | some h => .ok (h, m)
    | none =>
      match s.look k with
      | .present atom => .ok (m.learn atom)
      | .absent atom =>
        match m.policy with
        | .strict => .error (.unknownAtom atom)
        | .deferring _ => .ok (m.postpone atom)

/-- The instance of a predicate with constants. If there is none, the manager stays as it is. -/
def resolve (m : Manager) (s : Store) (predicate : Predicate) (args : List Constant) :
    Except LookupFault (Handle × Manager) :=
  match GroundKey.make predicate args with
  | .error fault => .error (.invalidKey fault)
  | .ok k => m.resolveKey s k

/-- Give an instance a truth value. -/
def setValue (m : Manager) (h : Handle) (value : Float) : Manager :=
  { m with pool := m.pool.setValue h value }

/-- An instance as it is seen now. -/
def view (m : Manager) (h : Handle) : GroundAtom := m.pool.view h

/-- Take activated atoms over into the resolved ones, which keep what they have. -/
def adopt (m : Manager) (atoms : List Handle) (state : AtomState) : Manager :=
  atoms.foldl (fun m h =>
    { m with
      pool := m.pool.setState h state
      known := m.known.insertNew h.key h
      lazy := m.lazy.erase h.key }) m

/-- Say of the resolved atoms of a predicate that live in one partition that they now live in
another. -/
def promote (m : Manager) (predicate : Predicate) (source goal : PartitionId) : Manager :=
  { m with
    pool := m.known.values.foldl (fun pool h =>
      if h.key.predicate = predicate ∧ pool.state h = .unobserved source then
        pool.setState h (.unobserved goal)
      else pool) m.pool }

end Manager

end RuleGrounding
