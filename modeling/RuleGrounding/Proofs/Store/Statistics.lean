import Mathlib.Data.Set.Card
import RuleGrounding.Proofs.OrderedSet
import RuleGrounding.Store.Statistics

/-!
# Statistics count what they say

Equal values of a column are neighbours when it is sorted, so that its runs are its distinct
values. The values below a bound then come first, so that halving the column finds how many there
are, and the values between two bounds are a difference of two such numbers.
-/

namespace RuleGrounding

namespace Constant

theorem lt_iff_not_le {a b : Constant} : a.lt b = true ↔ ¬ b.le a = true := by
  rw [lt, Bool.not_eq_true', Bool.not_eq_true]

theorem lt_of_le_of_lt {a b c : Constant} (hab : a.le b = true) (hbc : b.lt c = true) :
    a.lt c = true := by
  rw [lt_iff_not_le] at hbc ⊢
  exact fun hca => hbc (le_trans hca hab)

end Constant

namespace TableStatistics

/-- No value comes before a smaller one. -/
def Sorted (values : List Constant) : Prop := values.Pairwise fun a b => a.le b = true

/-- A list shows a property first: an element has it if a later one has. -/
def ShowsFirst (before : Constant → Bool) (values : List Constant) : Prop :=
  values.Pairwise fun a b => before b = true → before a = true

variable {values : List Constant} {before : Constant → Bool} {a lo hi : Constant}

theorem sorted_mergeSort (values : List Constant) : Sorted (values.mergeSort Constant.le) := by
  have htotal : ∀ a b : Constant, (a.le b || b.le a) = true := by
    intro a b
    rw [Bool.or_eq_true]
    exact Constant.le_total a b
  have htrans : ∀ a b c : Constant, a.le b = true → b.le c = true → a.le c = true :=
    fun _ _ _ => Constant.le_trans
  exact List.pairwise_mergeSort htrans htotal values

section Runs

/-- A value that differs from the first one of a sorted list that it heads does not come back. -/
theorem Sorted.not_mem_of_ne {b : Constant} (h : Sorted (a :: b :: values)) (hne : a ≠ b) :
    a ∉ b :: values := by
  intro hmem
  obtain ⟨ha, hb⟩ := List.pairwise_cons.mp h
  rcases List.mem_cons.mp hmem with heq | hmem
  · exact hne heq
  · have hba : b.le a = true := (List.pairwise_cons.mp hb).1 a hmem
    exact hne (Constant.le_antisymm (ha b List.mem_cons_self) hba)

/-- The runs of a sorted list are its distinct values. -/
theorem Sorted.runs_eq (h : Sorted values) : runs values = values.toFinset.card := by
  induction values using runs.induct with
  | case1 => rfl
  | case2 a => rfl
  | case3 a rest ih =>
    rw [runs, if_pos rfl, ih (List.pairwise_cons.mp h).2]
    simp
  | case4 a b rest hne ih =>
    have hnot : a ∉ (b :: rest).toFinset := by
      rw [List.mem_toFinset]
      exact h.not_mem_of_ne hne
    rw [runs, if_neg hne, ih (List.pairwise_cons.mp h).2, List.toFinset_cons (a := a),
      Finset.card_insert_of_notMem hnot]

end Runs

section Search

/-- Where a property shows first, the elements that have it are those at the places below their
number. -/
theorem ShowsFirst.any_getElem?_iff (h : ShowsFirst before values) (i : Nat) :
    values[i]?.any before = true ↔ i < values.countP before := by
  induction values generalizing i with
  | nil => simp
  | cons a values ih =>
    obtain ⟨ha, hvalues⟩ := List.pairwise_cons.mp h
    by_cases hbefore : before a = true
    · rw [List.countP_cons_of_pos hbefore]
      cases i with
      | zero => simp [hbefore]
      | succ i => rw [List.getElem?_cons_succ, ih hvalues, Nat.succ_lt_succ_iff]
    · have hnone : values.countP before = 0 :=
        List.countP_eq_zero.mpr fun b hb hb' => hbefore (ha b hb hb')
      rw [List.countP_cons_of_neg hbefore, hnone]
      cases i with
      | zero => simp [hbefore]
      | succ i => rw [List.getElem?_cons_succ, ih hvalues, hnone]; omega

/-- Halving keeps the number that is searched for between the ends of the range, and so finds
it. -/
theorem ShowsFirst.searchBetween_eq (h : ShowsFirst before values) {low high : Nat}
    (hlow : low ≤ values.countP before) (hhigh : values.countP before ≤ high) :
    searchBetween before values low high = values.countP before := by
  induction low, high using searchBetween.induct before values with
  | case1 low high hlt middle hbefore ih =>
    rw [searchBetween, if_pos hlt]
    simp only [middle] at hbefore ih
    rw [if_pos hbefore]
    exact ih ((h.any_getElem?_iff _).mp hbefore) hhigh
  | case2 low high hlt middle hbefore ih =>
    rw [searchBetween, if_pos hlt]
    simp only [middle] at hbefore ih
    rw [if_neg hbefore]
    exact ih hlow (Nat.le_of_not_lt (mt (h.any_getElem?_iff _).mpr hbefore))
  | case3 low high hlt =>
    rw [searchBetween, if_neg hlt]
    omega

theorem ShowsFirst.partitionPoint_eq (h : ShowsFirst before values) :
    partitionPoint before values = values.countP before :=
  h.searchBetween_eq (Nat.zero_le _) List.countP_le_length

end Search

section Range

theorem Sorted.showsFirst_lt (h : Sorted values) (lo : Constant) :
    ShowsFirst (fun v => v.lt lo) values :=
  h.imp Constant.lt_of_le_of_lt

theorem Sorted.showsFirst_le (h : Sorted values) (hi : Constant) :
    ShowsFirst (fun v => v.le hi) values :=
  h.imp Constant.le_trans

/-- The values up to the upper bound are those below the lower one and those between the two. -/
theorem countP_le_eq (values : List Constant) (h : lo.le hi = true) :
    values.countP (fun v => v.le hi) =
      values.countP (fun v => v.lt lo) + values.countP fun v => lo.le v && v.le hi := by
  induction values with
  | nil => rfl
  | cons a values ih =>
    rw [List.countP_cons, List.countP_cons, List.countP_cons, ih]
    by_cases hlo : lo.le a = true
    · have hlt : a.lt lo = false := by rw [Constant.lt, hlo]; rfl
      simp only [hlo, hlt, Bool.true_and, Bool.false_eq_true, if_false]
      omega
    · have hlt : a.lt lo = true := Constant.lt_iff_not_le.mpr hlo
      have hle : a.le hi = true :=
        Constant.le_trans ((Constant.le_total lo a).resolve_left hlo) h
      simp only [hlo, hlt, hle, Bool.false_and, Bool.false_eq_true, if_true, if_false]
      omega

/-- The two searches end in order, and what lies between them are the values in the range. -/
theorem Sorted.partitionPoint_lt_add (h : Sorted values) (hle : lo.le hi = true) :
    partitionPoint (fun v => v.le hi) values =
      partitionPoint (fun v => v.lt lo) values +
        values.countP fun v => lo.le v && v.le hi := by
  rw [(h.showsFirst_le hi).partitionPoint_eq, (h.showsFirst_lt lo).partitionPoint_eq,
    countP_le_eq values hle]

end Range

section Rows

variable {arity column : Nat} {rows rows' : List (List Constant)}

/-- The values of a column, in the order of the rows. -/
def columnValues (column : Nat) (rows : List (List Constant)) : List Constant :=
  rows.filterMap fun row => row[column]?

theorem columns_ofRows (arity column : Nat) (rows : List (List Constant)) :
    (ofRows arity rows).columns[column]? =
      if column < arity then some ((columnValues column rows).mergeSort Constant.le) else none := by
  rw [ofRows, List.getElem?_map]
  split
  · rename_i h
    rw [List.getElem?_range h]
    rfl
  · rename_i h
    rw [List.getElem?_eq_none (by simpa using h)]
    rfl

/-- The statistics of permuted rows are the same. -/
theorem ofRows_eq_of_perm (h : rows.Perm rows') : ofRows arity rows = ofRows arity rows' := by
  rw [ofRows, ofRows, h.length_eq]
  congr 1
  refine List.map_congr_left fun column _ => ?_
  exact OrderedSet.mergeSort_eq_of_perm Constant.le_total (fun _ _ _ => Constant.le_trans)
    (fun _ _ => Constant.le_antisymm) (h.filterMap _)

theorem cardinality_ofRows (h : column < arity) :
    (ofRows arity rows).cardinality column =
      some {c | ∃ row ∈ rows, row[column]? = some c}.ncard := by
  have hset : {c | ∃ row ∈ rows, row[column]? = some c} =
      ↑((columnValues column rows).mergeSort Constant.le).toFinset := by
    ext c
    simp [columnValues, List.mem_mergeSort]
  rw [cardinality, columns_ofRows, if_pos h, Option.map_some, (sorted_mergeSort _).runs_eq, hset,
    Set.ncard_coe_finset]

theorem countP_column (column : Nat) (rows : List (List Constant)) (p : Constant → Bool) :
    ((columnValues column rows).mergeSort Constant.le).countP p =
      rows.countP fun row => row[column]?.any p := by
  rw [(List.mergeSort_perm _ _).countP_eq, columnValues, List.countP_filterMap]
  refine List.countP_congr fun row _ => ?_
  cases row[column]? <;> simp

theorem rangeSelectivity_ofRows (h : column < arity) (lo hi : Constant) :
    (ofRows arity rows).rangeSelectivity column lo hi =
      some (if hi.lt lo = true ∨ rows = [] then 0.0 else
        (rows.countP fun row => row[column]?.any fun v => lo.le v && v.le hi).toFloat /
          rows.length.toFloat) := by
  have hcount : (ofRows arity rows).count = rows.length := rfl
  rw [rangeSelectivity, columns_ofRows, if_pos h, Option.map_some, hcount]
  congr 1
  by_cases hempty : hi.lt lo = true ∨ rows = []
  · rw [if_pos hempty, if_pos]
    simpa [or_comm] using hempty
  · rw [if_neg hempty, if_neg (by simpa [or_comm] using hempty)]
    rw [not_or, Constant.lt_iff_not_le, not_not] at hempty
    have hstop := (sorted_mergeSort (columnValues column rows)).partitionPoint_lt_add hempty.1
    simp only [hstop, Nat.add_sub_cancel_left, countP_column]

/-- Whatever the rows of a table are, each of its columns is counted as it is: the cardinality is
the number of constants that occur in it, and the share of a range is the number of rows with a
value in the range among all rows, or zero if the range or the table is empty. The searches for
the ends of a range that is not empty never end in the wrong order. The order of the rows does not
show. -/
theorem columns_are_counted (arity : Nat) (rows : List (List Constant)) :
    (∀ column < arity,
      (ofRows arity rows).cardinality column =
        some {c | ∃ row ∈ rows, row[column]? = some c}.ncard ∧
      ∀ lo hi, (ofRows arity rows).rangeSelectivity column lo hi =
        some (if hi.lt lo = true ∨ rows = [] then 0.0 else
          (rows.countP fun row => row[column]?.any fun v => lo.le v && v.le hi).toFloat /
            rows.length.toFloat)) ∧
    (∀ values ∈ (ofRows arity rows).columns, ∀ lo hi, ¬ hi.lt lo = true →
      partitionPoint (fun v => v.lt lo) values ≤ partitionPoint (fun v => v.le hi) values) ∧
    ∀ rows', rows.Perm rows' → ofRows arity rows' = ofRows arity rows := by
  refine ⟨fun column h => ⟨cardinality_ofRows h, rangeSelectivity_ofRows h⟩, ?_, ?_⟩
  · intro values hvalues lo hi hle
    obtain ⟨column, -, rfl⟩ := List.mem_map.mp hvalues
    rw [Constant.lt_iff_not_le, not_not] at hle
    rw [(sorted_mergeSort _).partitionPoint_lt_add hle]
    exact Nat.le_add_right _ _
  · intro rows' h
    exact (ofRows_eq_of_perm h).symm

end Rows

end TableStatistics

end RuleGrounding
