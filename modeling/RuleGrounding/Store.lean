import RuleGrounding.Atom
import RuleGrounding.Fault.Store
import RuleGrounding.Partition
import RuleGrounding.SoftValue
import RuleGrounding.Store.Statistics

/-!
# The store of atoms

The store keeps ground atoms of standard predicates with a value and the one
partition that each of them lies in. A write that is refused leaves the store as
it was.
-/

namespace RuleGrounding

/-- What is stored about an atom. -/
structure StoredAtom where
  /-- The truth value. -/
  value : Float
  /-- The partition in which the atom lies. -/
  partition : PartitionId

/-- Stored atoms, the layout of their partitions, and the value of an atom that is not stored. -/
structure Store where
  /-- The stored atoms. -/
  rows : FiniteMap GroundKey StoredAtom
  /-- The roles of the partitions. -/
  layout : PartitionLayout
  /-- The value of an atom that is not stored. -/
  defaultValue : Float

namespace Store

/-- The empty store over a layout; atoms that are not stored have the given value, brought
between zero and one. -/
def empty (layout : PartitionLayout) (defaultValue : Float) : Store :=
  ⟨∅, layout, SoftValue.clamp defaultValue⟩

/-- Why an atom may not be written with a value into a partition, whatever is stored. -/
def writeFault? (s : Store) (k : GroundKey) (value : Float) (p : PartitionId) :
    Option StoreFault :=
  if !s.layout.contains p then some (.unknownPartition p)
  else if !k.predicate.isStandard then some (.functionalAtom k.toText)
  else if !SoftValue.inUnit value then some (.valueOutOfRange k.toText value)
  else none

/-- An atom that lies in another partition may not be written. -/
def placeFault? (s : Store) (k : GroundKey) (p : PartitionId) : Option StoreFault :=
  match s.rows.find? k with
  | some stored =>
    if stored.partition = p then none else some (.duplicateAtom k.toText stored.partition)
  | none => none

/-- Why an atom is not stored with a value in a partition. -/
def insertFault? (s : Store) (k : GroundKey) (value : Float) (p : PartitionId) :
    Option StoreFault :=
  s.writeFault? k value p <|> s.placeFault? k p

/-- Write an atom without checks. -/
def put (s : Store) (k : GroundKey) (value : Float) (p : PartitionId) : Store :=
  { s with rows := s.rows.insert k ⟨value, p⟩ }

/-- Store an atom; one that lies in the same partition already gets the new value. -/
def insert (s : Store) (k : GroundKey) (value : Float) (p : PartitionId) :
    Except StoreFault Store :=
  match s.insertFault? k value p with
  | some fault => .error fault
  | none => .ok (s.put k value p)

/-- Store several atoms in one partition, all of them or none. -/
def commit (s : Store) (atoms : List (GroundKey × Float)) (p : PartitionId) :
    Except StoreFault Store :=
  match atoms.findSome? fun a => s.insertFault? a.1 a.2 p with
  | some fault => .error fault
  | none => .ok (atoms.foldl (fun s a => s.put a.1 a.2 p) s)

/-- What is stored about an atom in the partitions of the layout. -/
def get? (s : Store) (k : GroundKey) : Option StoredAtom :=
  (s.rows.find? k).filter fun stored => s.layout.contains stored.partition

/-- The atoms of a partition with their values. -/
def atomsIn (s : Store) (p : PartitionId) : List (GroundKey × Float) :=
  (s.rows.entries.filter fun e => e.2.partition = p).map fun e => (e.1, e.2.value)

/-- The number of stored atoms. -/
def size (s : Store) : Nat := s.rows.size

/-- The statistics of the stored atoms of a predicate. -/
def statistics (s : Store) (predicate : Predicate) : TableStatistics :=
  .ofRows predicate.arity
    ((s.rows.entries.filter fun e => e.1.predicate = predicate).map fun e => e.1.args)

/-- Whether a stored atom is moved when the atoms of a predicate leave a partition. -/
def moves (s : Store) (predicate : Predicate) (source : PartitionId) (k : GroundKey)
    (stored : StoredAtom) : Bool :=
  decide (k.predicate = predicate) && decide (stored.partition = source) &&
    decide (source ≠ s.layout.write)

/-- Move the atoms of a predicate from a partition into the write partition, and count them. -/
def moveToWrite (s : Store) (predicate : Predicate) (source : PartitionId) :
    Except StoreFault (Nat × Store) :=
  if !s.layout.contains source then .error (.unknownPartition source)
  else
    .ok ((s.rows.entries.filter fun e => s.moves predicate source e.1 e.2).length,
      { s with
        rows := s.rows.mapValues fun k stored =>
          if s.moves predicate source k stored then { stored with partition := s.layout.write }
          else stored })

end Store

end RuleGrounding
