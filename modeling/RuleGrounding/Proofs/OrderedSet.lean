import RuleGrounding.OrderedSet
import RuleGrounding.Term

/-!
# Ascending lists have no repetition

A set that is built by adding elements at their places is strictly ascending, so
its length is the number of its elements, and its elements determine it. A list that is
sorted does not depend on the order in which its elements came either.
-/

namespace RuleGrounding

namespace OrderedSet

variable {α : Type} {le : α → α → Bool}

/-- Every element comes before those behind it, and differs from them. -/
def Ascending (le : α → α → Bool) (xs : List α) : Prop :=
  xs.Pairwise fun a b => le a b = true ∧ a ≠ b

theorem Ascending.nodup {xs : List α} (h : Ascending le xs) : xs.Nodup :=
  h.imp fun hab => hab.2

/-- An ascending list is determined by its elements. -/
theorem Ascending.eq_of_mem_iff {xs ys : List α}
    (hantisymm : ∀ a b, le a b = true → le b a = true → a = b) (h : Ascending le xs)
    (h' : Ascending le ys) (hmem : ∀ x, x ∈ xs ↔ x ∈ ys) : xs = ys :=
  ((List.perm_ext_iff_of_nodup h.nodup h'.nodup).mpr hmem).eq_of_pairwise
    (fun a b _ _ hab hba => hantisymm a b hab.1 hba.1) h h'

/-- So is a list that is sorted by its elements and their numbers. -/
theorem mergeSort_eq_of_perm (htotal : ∀ a b, le a b = true ∨ le b a = true)
    (htrans : ∀ a b c, le a b = true → le b c = true → le a c = true)
    (hantisymm : ∀ a b, le a b = true → le b a = true → a = b) {xs ys : List α}
    (h : xs.Perm ys) : xs.mergeSort le = ys.mergeSort le := by
  have hsorted : ∀ zs : List α, (zs.mergeSort le).Pairwise fun a b => le a b = true :=
    List.pairwise_mergeSort htrans fun a b => by rw [Bool.or_eq_true]; exact htotal a b
  have hperm : (xs.mergeSort le).Perm (ys.mergeSort le) :=
    (List.mergeSort_perm xs le).trans (h.trans (List.mergeSort_perm ys le).symm)
  exact hperm.eq_of_pairwise (fun a b _ _ => hantisymm a b) (hsorted xs) (hsorted ys)

theorem ascending_nil : Ascending le ([] : List α) := List.Pairwise.nil

variable [DecidableEq α]

/-- Adding an element at its place keeps a list ascending. -/
theorem ascending_insert (htotal : ∀ a b, le a b = true ∨ le b a = true)
    (htrans : ∀ a b c, le a b = true → le b c = true → le a c = true)
    (hantisymm : ∀ a b, le a b = true → le b a = true → a = b) {x : α} {ys : List α}
    (h : Ascending le ys) : Ascending le (insert le x ys) := by
  induction ys with
  | nil => exact List.pairwise_singleton _ x
  | cons y ys ih =>
    obtain ⟨hy, hys⟩ := List.pairwise_cons.mp h
    rw [insert]
    split
    · exact h
    · rename_i hne
      split
      · rename_i hle
        refine List.pairwise_cons.mpr ⟨fun z hz => ?_, h⟩
        rcases List.mem_cons.mp hz with rfl | hz
        · exact ⟨hle, hne⟩
        · obtain ⟨hyz, hyz'⟩ := hy z hz
          refine ⟨htrans x y z hle hyz, ?_⟩
          rintro rfl
          exact hyz' (hantisymm y x hyz hle)
      · rename_i hle
        refine List.pairwise_cons.mpr ⟨fun z hz => ?_, ih hys⟩
        rcases mem_insert.mp hz with rfl | hz
        · exact ⟨(htotal z y).resolve_left hle, fun he => hne he.symm⟩
        · exact hy z hz

theorem ascending_insertAll (htotal : ∀ a b, le a b = true ∨ le b a = true)
    (htrans : ∀ a b c, le a b = true → le b c = true → le a c = true)
    (hantisymm : ∀ a b, le a b = true → le b a = true → a = b) {xs ys : List α}
    (h : Ascending le ys) : Ascending le (insertAll le xs ys) := by
  rw [insertAll]
  induction xs generalizing ys with
  | nil => exact h
  | cons x xs ih => exact ih (ascending_insert htotal htrans hantisymm h)

end OrderedSet

namespace Constant

theorem le_total (a b : Constant) : a.le b = true ∨ b.le a = true := by
  cases a <;> cases b <;> simp only [le, decide_eq_true_eq, Bool.not_eq_true', or_true,
    decide_eq_false_iff_not, Bool.false_eq_true, or_false]
  · exact Int.le_total ..
  · exact String.le_total ..

theorem le_trans {a b c : Constant} (hab : a.le b = true) (hbc : b.le c = true) :
    a.le c = true := by
  cases a <;> cases b <;> cases c <;> simp only [le, decide_eq_true_eq, Bool.not_eq_true',
    decide_eq_false_iff_not, Bool.false_eq_true] at hab hbc ⊢
  · exact Int.le_trans hab hbc
  · exact String.le_trans hab hbc

theorem le_antisymm {a b : Constant} (hab : a.le b = true) (hba : b.le a = true) : a = b := by
  cases a <;> cases b <;> simp only [le, decide_eq_true_eq, Bool.not_eq_true',
    decide_eq_false_iff_not, Bool.false_eq_true] at hab hba
  · rw [Int.le_antisymm hab hba]
  · rw [String.le_antisymm hab hba]

theorem rowLe_total (row row' : List Constant) : rowLe row row' = true ∨ rowLe row' row = true := by
  induction row generalizing row' with
  | nil => exact .inl rfl
  | cons a row ih =>
    cases row' with
    | nil => exact .inr rfl
    | cons b row' =>
      rw [rowLe, rowLe]
      by_cases hab : a = b
      · rw [if_pos hab, if_pos hab.symm]
        exact ih row'
      · rw [if_neg hab, if_neg (Ne.symm hab)]
        exact le_total a b

theorem rowLe_trans {row₁ row₂ row₃ : List Constant} (h : rowLe row₁ row₂ = true)
    (h' : rowLe row₂ row₃ = true) : rowLe row₁ row₃ = true := by
  induction row₁ generalizing row₂ row₃ with
  | nil => rfl
  | cons a row₁ ih =>
    cases row₂ with
    | nil => cases h
    | cons b row₂ =>
      cases row₃ with
      | nil => cases h'
      | cons c row₃ =>
        rw [rowLe] at h h' ⊢
        by_cases hab : a = b
        · subst hab
          rw [if_pos rfl] at h
          by_cases hac : a = c
          · rw [if_pos hac] at h' ⊢
            exact ih h h'
          · rwa [if_neg hac] at h' ⊢
        · rw [if_neg hab] at h
          by_cases hbc : b = c
          · subst hbc
            rwa [if_neg hab]
          · rw [if_neg hbc] at h'
            have hac : a ≠ c := by
              rintro rfl
              exact hab (le_antisymm h h')
            rw [if_neg hac]
            exact le_trans h h'

theorem rowLe_antisymm {row row' : List Constant} (h : rowLe row row' = true)
    (h' : rowLe row' row = true) : row = row' := by
  induction row generalizing row' with
  | nil =>
    cases row' with
    | nil => rfl
    | cons b row' => cases h'
  | cons a row ih =>
    cases row' with
    | nil => cases h
    | cons b row' =>
      rw [rowLe] at h h'
      by_cases hab : a = b
      · subst hab
        rw [if_pos rfl] at h h'
        rw [ih h h']
      · rw [if_neg hab] at h
        rw [if_neg (Ne.symm hab)] at h'
        exact absurd (le_antisymm h h') hab

/-- Constants stay in ascending order. -/
theorem ascending_insertAll {xs ys : List Constant} (h : OrderedSet.Ascending le ys) :
    OrderedSet.Ascending le (OrderedSet.insertAll le xs ys) :=
  OrderedSet.ascending_insertAll le_total (fun _ _ _ => le_trans) (fun _ _ => le_antisymm) h

end Constant

end RuleGrounding
