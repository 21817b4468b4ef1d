/-!
# Sets as ascending lists

A finite set of ordered elements is written as a strictly ascending list.
-/

namespace RuleGrounding

namespace OrderedSet

variable {α : Type} [DecidableEq α]

/-- Add an element at its place, unless it is there. -/
def insert (le : α → α → Bool) (x : α) : List α → List α
  | [] => [x]
  | y :: ys => if x = y then y :: ys else if le x y then x :: y :: ys else y :: insert le x ys

/-- Add several elements. -/
def insertAll (le : α → α → Bool) (xs ys : List α) : List α :=
  xs.foldl (fun acc x => insert le x acc) ys

/-- The elements of a set with one more are that one and those it had. -/
theorem mem_insert {le : α → α → Bool} {x z : α} {ys : List α} :
    z ∈ insert le x ys ↔ z = x ∨ z ∈ ys := by
  induction ys with
  | nil => simp [insert]
  | cons y ys ih =>
    unfold insert
    split
    · rename_i h
      subst h
      simp
    · split
      · simp
      · simp only [List.mem_cons, ih]
        constructor
        · rintro (h | h | h)
          · exact .inr (.inl h)
          · exact .inl h
          · exact .inr (.inr h)
        · rintro (h | h | h)
          · exact .inr (.inl h)
          · exact .inl h
          · exact .inr (.inr h)

/-- The elements of a set with several more are these and those it had. -/
theorem mem_insertAll {le : α → α → Bool} {xs ys : List α} {z : α} :
    z ∈ insertAll le xs ys ↔ z ∈ xs ∨ z ∈ ys := by
  unfold insertAll
  induction xs generalizing ys with
  | nil => simp
  | cons x xs ih =>
    rw [List.foldl_cons, ih, mem_insert, List.mem_cons]
    constructor
    · rintro (h | h | h)
      · exact .inl (.inr h)
      · exact .inl (.inl h)
      · exact .inr h
    · rintro ((h | h) | h)
      · exact .inr (.inl h)
      · exact .inl h
      · exact .inr (.inr h)

end OrderedSet

end RuleGrounding
