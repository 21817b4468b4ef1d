import RuleGrounding.Fault.Partition
import RuleGrounding.FiniteMap

/-!
# Partitions and their roles

Stored atoms lie in partitions. A registry numbers partition names; a layout
gives partitions their roles: read partitions hold evidence, the write partition
the targets of inference, and the lazy partition stages atoms while the rules
they affect are grounded again.
-/

namespace RuleGrounding

/-- The partition names that have a number, and the next free number. -/
structure PartitionRegistry where
  /-- The number of each name. -/
  ids : FiniteMap String PartitionId
  /-- The number that the next new name gets. -/
  next : Nat

namespace PartitionRegistry

/-- The registry without names. -/
def empty : PartitionRegistry := ⟨∅, 0⟩

/-- Give the next number to a new name. -/
def allocate (r : PartitionRegistry) (name : String) : PartitionId × PartitionRegistry :=
  (⟨r.next⟩, ⟨r.ids.insert name ⟨r.next⟩, r.next + 1⟩)

/-- Register a name that is not taken. -/
def register (r : PartitionRegistry) (name : String) :
    Except PartitionFault (PartitionId × PartitionRegistry) :=
  if r.ids.contains name then .error (.alreadyExists name) else .ok (r.allocate name)

/-- The number of a registered name. -/
def get (r : PartitionRegistry) (name : String) : Except PartitionFault PartitionId :=
  match r.ids.find? name with
  | some id => .ok id
  | none => .error (.notFound name)

/-- The number of a name, which is registered if it is new. -/
def getOrRegister (r : PartitionRegistry) (name : String) : PartitionId × PartitionRegistry :=
  match r.ids.find? name with
  | some id => (id, r)
  | none => r.allocate name

/-- The numbers of several names, the new ones registered from left to right. -/
def getOrRegisterAll (r : PartitionRegistry) : List String → List PartitionId × PartitionRegistry
  | [] => ([], r)
  | name :: names =>
    let (id, r) := r.getOrRegister name
    let (ids, r) := r.getOrRegisterAll names
    (id :: ids, r)

end PartitionRegistry

/-- The first element of a list that stands in it before. -/
def firstRepeated? {α : Type} [DecidableEq α] (seen : List α) : List α → Option α
  | [] => none
  | x :: xs => if x ∈ seen then some x else firstRepeated? (x :: seen) xs

/-- No element is repeated exactly if all are distinct, and distinct from those before. -/
theorem firstRepeated?_eq_none_iff {α : Type} [DecidableEq α] {seen xs : List α} :
    firstRepeated? seen xs = none ↔ xs.Nodup ∧ ∀ x ∈ xs, x ∉ seen := by
  induction xs generalizing seen with
  | nil => simp [firstRepeated?]
  | cons x xs ih =>
    rw [firstRepeated?]
    split
    · rename_i hx
      exact iff_of_false (fun h => by cases h) fun h => h.2 x List.mem_cons_self hx
    · rename_i hx
      rw [ih, List.nodup_cons]
      constructor
      · rintro ⟨hxs, hseen⟩
        refine ⟨⟨fun hmem => hseen x hmem List.mem_cons_self, hxs⟩, fun y hy => ?_⟩
        rcases List.mem_cons.mp hy with rfl | hy
        · exact hx
        · exact fun hmem => hseen y hy (List.mem_cons_of_mem x hmem)
      · rintro ⟨⟨hmem, hxs⟩, hseen⟩
        refine ⟨hxs, fun y hy hys => ?_⟩
        rcases List.mem_cons.mp hys with rfl | hys
        · exact hmem hy
        · exact hseen y (List.mem_cons_of_mem x hy) hys

/-- The roles of partitions. -/
structure PartitionLayout where
  /-- The partitions of evidence. -/
  read : List PartitionId
  /-- The partition of targets. -/
  write : PartitionId
  /-- The staging partition. -/
  lazy : PartitionId
  deriving DecidableEq, Repr

namespace PartitionLayout

/-- Form a layout, in which no partition may have two roles. -/
def make (read : List PartitionId) (write lazy : PartitionId) :
    Except PartitionFault PartitionLayout :=
  match firstRepeated? [] (read ++ [write, lazy]) with
  | some id => .error (.overlap id)
  | none => .ok ⟨read, write, lazy⟩

/-- In a layout that is formed the partitions are distinct. -/
theorem nodup_of_make {read : List PartitionId} {write lazy : PartitionId} {l : PartitionLayout}
    (h : make read write lazy = .ok l) : (l.read ++ [l.write, l.lazy]).Nodup := by
  rw [make] at h
  split at h
  · cases h
  · rename_i hnone
    cases h
    exact (firstRepeated?_eq_none_iff.mp hnone).1

/-- In particular, atoms are not staged in the target partition. -/
theorem lazy_ne_write_of_make {read : List PartitionId} {write lazy : PartitionId}
    {l : PartitionLayout} (h : make read write lazy = .ok l) : l.lazy ≠ l.write := by
  obtain ⟨-, hroles, -⟩ := List.nodup_append.mp (nodup_of_make h)
  exact fun he => (List.nodup_cons.mp hroles).1 (List.mem_singleton.mpr he.symm)

/-- Register the names that are new and form a layout of their partitions. The names stay
registered if there is no layout. -/
def named (r : PartitionRegistry) (read : List String) (write lazy : String) :
    Except PartitionFault PartitionLayout × PartitionRegistry :=
  let (readIds, r) := r.getOrRegisterAll read
  let (writeId, r) := r.getOrRegister write
  let (lazyId, r) := r.getOrRegister lazy
  (make readIds writeId lazyId, r)

/-- Whether a partition holds evidence. -/
def isRead (l : PartitionLayout) (p : PartitionId) : Bool := decide (p ∈ l.read)

/-- The partitions of the layout, which queries see. -/
def visible (l : PartitionLayout) : List PartitionId := l.read ++ [l.write, l.lazy]

/-- Whether a partition has a role. -/
def contains (l : PartitionLayout) (p : PartitionId) : Bool :=
  l.isRead p || decide (p = l.write) || decide (p = l.lazy)

/-- A partition has a role exactly when it is visible. -/
theorem contains_iff {l : PartitionLayout} {p : PartitionId} :
    l.contains p = true ↔ p ∈ l.visible := by
  simp [contains, isRead, visible, or_assoc]

/-- The lazy partition has a role. -/
theorem contains_lazy (l : PartitionLayout) : l.contains l.lazy = true := by
  simp [contains]

/-- The write partition has a role. -/
theorem contains_write (l : PartitionLayout) : l.contains l.write = true := by
  simp [contains]

end PartitionLayout

end RuleGrounding
