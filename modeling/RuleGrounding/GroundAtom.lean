import RuleGrounding.Atom
import RuleGrounding.Partition
import RuleGrounding.SoftValue

/-!
# Ground atoms and the pool that holds them

A ground atom is shared: everybody who holds its handle sees the same value and
state. The pool keeps one cell for each handle ever given out; a handle is a key
with the number of its cell, so two handles of one key may still be different
instances.
-/

namespace RuleGrounding

/-- Where a ground atom lives. -/
inductive AtomState where
  /-- In a read partition: fixed evidence. -/
  | observed (partition : PartitionId)
  /-- In the write or the lazy partition: a target of inference. -/
  | unobserved (partition : PartitionId)
  /-- In no partition yet. -/
  | lazy
  /-- Nowhere: the value is computed. -/
  | computed
  deriving DecidableEq, Repr

namespace AtomState

/-- The partition in which the atom lies. -/
def partition? : AtomState → Option PartitionId
  | observed p => some p
  | unobserved p => some p
  | lazy => none
  | computed => none

/-- The state as text. -/
def toText : AtomState → String
  | observed p => s!"observed({p.toText})"
  | unobserved p => s!"unobserved({p.toText})"
  | lazy => "lazy"
  | computed => "computed"

end AtomState

/-- A ground atom as it is seen at one moment. -/
structure GroundAtom where
  /-- The atom's identity. -/
  key : GroundKey
  /-- The truth value. -/
  value : Float
  /-- Where the atom lives. -/
  state : AtomState

/-- One shared instance of a ground atom. -/
structure Handle where
  /-- The atom's identity. -/
  key : GroundKey
  /-- The number of the instance's cell. -/
  serial : Nat
  deriving DecidableEq

/-- What may change about an instance. -/
structure AtomCell where
  /-- The truth value. -/
  value : Float
  /-- Where the atom lives. -/
  state : AtomState

/-- The cells of all instances. -/
structure AtomPool where
  /-- The cells, by serial number. -/
  cells : Array AtomCell

namespace AtomPool

/-- The pool without instances. -/
def empty : AtomPool := ⟨#[]⟩

/-- The cell of an instance; one that the pool has not given out is unknown everywhere. -/
def cell (pool : AtomPool) (h : Handle) : AtomCell :=
  (pool.cells[h.serial]?).getD ⟨0.0, .lazy⟩

/-- The truth value of an instance. -/
def value (pool : AtomPool) (h : Handle) : Float := (pool.cell h).value

/-- Where an instance lives. -/
def state (pool : AtomPool) (h : Handle) : AtomState := (pool.cell h).state

/-- An instance as it is seen now. -/
def view (pool : AtomPool) (h : Handle) : GroundAtom := ⟨h.key, pool.value h, pool.state h⟩

/-- A new instance of an atom. -/
def allocate (pool : AtomPool) (atom : GroundAtom) : Handle × AtomPool :=
  (⟨atom.key, pool.cells.size⟩, ⟨pool.cells.push ⟨atom.value, atom.state⟩⟩)

/-- Change the cell of an instance. -/
def modify (pool : AtomPool) (h : Handle) (f : AtomCell → AtomCell) : AtomPool :=
  ⟨pool.cells.modify h.serial f⟩

/-- Give an instance a truth value, brought between zero and one. -/
def setValue (pool : AtomPool) (h : Handle) (value : Float) : AtomPool :=
  pool.modify h fun c => { c with value := SoftValue.clamp value }

/-- Say where an instance lives. -/
def setState (pool : AtomPool) (h : Handle) (state : AtomState) : AtomPool :=
  pool.modify h fun c => { c with state }

/-- A new instance has the given value and state. -/
theorem view_allocate (pool : AtomPool) (atom : GroundAtom) :
    (pool.allocate atom).2.view (pool.allocate atom).1 = atom := by
  simp [allocate, view, value, state, cell]

/-- A new instance leaves the instances of the pool as they were. -/
theorem cell_allocate {pool : AtomPool} {h : Handle} (atom : GroundAtom)
    (hh : h.serial < pool.cells.size) : (pool.allocate atom).2.cell h = pool.cell h := by
  simp [allocate, cell, Array.getElem?_push, Nat.ne_of_lt hh]

/-- A change of one instance leaves the others as they were. -/
theorem cell_modify_of_ne {pool : AtomPool} {h h' : Handle} (f : AtomCell → AtomCell)
    (hne : h.serial ≠ h'.serial) : (pool.modify h f).cell h' = pool.cell h' := by
  simp [modify, cell, Array.getElem?_modify, hne]

end AtomPool

end RuleGrounding
