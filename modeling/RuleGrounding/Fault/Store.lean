import RuleGrounding.Decimal.Layout
import RuleGrounding.Fault.Partition

/-!
# Faults of the store

Why an atom is not stored.
-/

namespace RuleGrounding

/-- Why an atom is not stored. -/
inductive StoreFault where
  /-- The atom lies in another partition. -/
  | duplicateAtom (atom : String) (existing : PartitionId)
  /-- The partition has no role in the layout. -/
  | unknownPartition (partition : PartitionId)
  /-- The value is not between zero and one. -/
  | valueOutOfRange (atom : String) (value : Float)
  /-- The atom's predicate is computed. -/
  | functionalAtom (atom : String)
  deriving Repr

namespace StoreFault

/-- What is said about an atom that is not stored. -/
def diagnosis : StoreFault → Diagnosis
  | duplicateAtom atom existing => {
      code := "store::duplicate_atom"
      message := s!"atom {atom} already stored in partition {existing.number}"
      help :=
        "An atom belongs to exactly one partition; move it instead of inserting it twice." }
  | unknownPartition partition => {
      code := "store::unknown_partition"
      message := s!"partition {partition.number} is not part of the store layout"
      help := "Only the read, write and lazy partitions given at construction can be written." }
  | valueOutOfRange atom value => {
      code := "store::value_range"
      message := s!"value {numberText value} for atom {atom} is outside [0, 1]"
      help := "Soft-truth values must lie in the closed unit interval." }
  | functionalAtom atom => {
      code := "store::functional"
      message := s!"cannot persist atom {atom} of functional predicate"
      help := "Functional predicates are computed on demand and never stored." }

end StoreFault

end RuleGrounding
