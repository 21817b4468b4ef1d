/-!
# Ordering by text

Where a collection has no order of its own it is shown in ascending order of the
texts of its elements.
-/

namespace RuleGrounding

/-- The elements in ascending order of their texts; those of equal text keep their order. -/
def ascending {α : Type} (text : α → String) (xs : List α) : List α :=
  xs.mergeSort fun a b => !decide (text b < text a)

/-- Every element stays, as often as it was there. -/
theorem ascending_perm {α : Type} (text : α → String) (xs : List α) :
    (ascending text xs).Perm xs := List.mergeSort_perm xs _

end RuleGrounding
