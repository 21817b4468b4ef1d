import RuleGrounding.Fault

/-!
# Faults of partitions

Why a partition name is refused or a layout cannot be formed.
-/

namespace RuleGrounding

/-- The number of a partition. -/
structure PartitionId where
  /-- The number. -/
  number : Nat
  deriving DecidableEq, Repr

/-- The partition as text. -/
def PartitionId.toText (p : PartitionId) : String := "partition:" ++ toString p.number

/-- Why a partition name is refused or a layout cannot be formed. -/
inductive PartitionFault where
  /-- No partition has the name. -/
  | notFound (name : String)
  /-- The name is taken. -/
  | alreadyExists (name : String)
  /-- A partition has two roles. -/
  | overlap (id : PartitionId)
  deriving DecidableEq, Repr

namespace PartitionFault

/-- What is said about a fault of partitions. -/
def diagnosis : PartitionFault → Diagnosis
  | notFound name => {
      code := "partition::not_found"
      message := s!"partition \"{name}\" not found"
      help := "Available partitions can be listed with the partition registry." }
  | alreadyExists name => {
      code := "partition::already_exists"
      message := s!"partition \"{name}\" already exists"
      help := "Use a different name or look up the existing partition." }
  | overlap id => {
      code := "partition::overlap"
      message := s!"partition {id.toText} has more than one role in the layout"
      help := "Read, write and lazy partitions must be pairwise distinct." }

end PartitionFault

end RuleGrounding
