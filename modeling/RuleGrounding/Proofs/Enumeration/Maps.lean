import Mathlib.Data.List.Nodup
import Mathlib.Data.List.Perm.Basic
import RuleGrounding.FiniteMap

/-!
# Maps up to enumeration

A finite map enumerates its entries in some order, on which what it finds does not depend.
Two maps that differ in this order only remain so under every operation.
-/

namespace RuleGrounding

namespace FiniteMap

variable {κ α : Type}

/-- A map has the entries of another one, perhaps in another order. -/
def Reorders (m m' : FiniteMap κ α) : Prop := m.entries.Perm m'.entries

theorem Reorders.refl (m : FiniteMap κ α) : m.Reorders m := List.Perm.refl _

theorem Reorders.symm {m m' : FiniteMap κ α} (h : m.Reorders m') : m'.Reorders m :=
  List.Perm.symm h

theorem Reorders.trans {m₁ m₂ m₃ : FiniteMap κ α} (h : m₁.Reorders m₂) (h' : m₂.Reorders m₃) :
    m₁.Reorders m₃ :=
  List.Perm.trans h h'

theorem Reorders.keys_perm {m m' : FiniteMap κ α} (h : m.Reorders m') : m.keys.Perm m'.keys :=
  h.map _

theorem Reorders.values_perm {m m' : FiniteMap κ α} (h : m.Reorders m') :
    m.values.Perm m'.values :=
  h.map _

section Lookup

variable [DecidableEq κ] {m m' : FiniteMap κ α}

/-- Maps have the same entries exactly if they find the same. -/
theorem reorders_iff : m.Reorders m' ↔ ∀ k, m.find? k = m'.find? k := by
  rw [Reorders, List.perm_ext_iff_of_nodup (List.Nodup.of_map _ m.nodup)
    (List.Nodup.of_map _ m'.nodup)]
  constructor
  · intro h k
    refine Option.ext fun v => ?_
    rw [find?_eq_some_iff, find?_eq_some_iff, h]
  · rintro h ⟨k, v⟩
    rw [← find?_eq_some_iff, ← find?_eq_some_iff, h]

theorem Reorders.find?_eq (h : m.Reorders m') (k : κ) : m.find? k = m'.find? k :=
  reorders_iff.mp h k

theorem Reorders.contains_eq (h : m.Reorders m') (k : κ) : m.contains k = m'.contains k := by
  rw [contains, contains, h.find?_eq]

theorem Reorders.insert (h : m.Reorders m') (k : κ) (v : α) :
    (m.insert k v).Reorders (m'.insert k v) := by
  refine reorders_iff.mpr fun k' => ?_
  rw [find?_insert, find?_insert, h.find?_eq]

end Lookup

end FiniteMap

end RuleGrounding
