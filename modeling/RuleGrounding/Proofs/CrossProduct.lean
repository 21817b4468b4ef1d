import Mathlib.Data.List.Forall2
import RuleGrounding.CrossProduct

/-!
# The tuples of a cross product

The enumeration by a cursor goes through all tuples in their natural order, each
of them once. A cursor is read as a number in mixed radix: one step adds one, and
comes around to the start at the end.
-/

namespace RuleGrounding

namespace CrossProduct

variable {α : Type}

/-- All tuples of some domains, by recursion over the positions. -/
def product : List (List α) → List (List α)
  | [] => [[]]
  | d :: ds => d.flatMap fun x => (product ds).map (x :: ·)

theorem product_cons (d : List α) (ds : List (List α)) :
    product (d :: ds) = d.flatMap fun x => (product ds).map (x :: ·) := rfl

/-- A tuple has one element of each domain. -/
theorem mem_product {ds : List (List α)} {t : List α} :
    t ∈ product ds ↔ List.Forall₂ (fun x d => x ∈ d) t ds := by
  induction ds generalizing t with
  | nil => rw [product, List.mem_singleton, List.forall₂_nil_right_iff]
  | cons d ds ih =>
    rw [product_cons, List.mem_flatMap, List.forall₂_cons_right_iff]
    constructor
    · rintro ⟨x, hx, ht⟩
      obtain ⟨rest, hrest, rfl⟩ := List.mem_map.mp ht
      exact ⟨x, rest, hx, ih.mp hrest, rfl⟩
    · rintro ⟨x, rest, hx, hrest, rfl⟩
      exact ⟨x, hx, List.mem_map_of_mem (ih.mpr hrest)⟩

/-- Without elements for some position there are no tuples. -/
theorem product_eq_nil {ds : List (List α)} (h : [] ∈ ds) : product ds = [] := by
  induction ds with
  | nil => cases h
  | cons d ds ih =>
    rw [product_cons]
    rcases List.mem_cons.mp h with rfl | h
    · rfl
    · rw [ih h]
      exact List.flatMap_eq_nil_iff.mpr fun _ _ => rfl

/-- With elements for every position there is a tuple. -/
theorem exists_mem_product {ds : List (List α)} (h : [] ∉ ds) : ∃ t, t ∈ product ds := by
  induction ds with
  | nil => exact ⟨[], List.mem_singleton_self _⟩
  | cons d ds ih =>
    obtain ⟨t, ht⟩ := ih (mt (List.mem_cons_of_mem d) h)
    cases d with
    | nil => exact absurd List.mem_cons_self h
    | cons x xs => exact ⟨x :: t, List.mem_flatMap.mpr ⟨x, List.mem_cons_self,
        List.mem_map_of_mem ht⟩⟩

/-- Domains without repetition give tuples without repetition. -/
theorem nodup_product {ds : List (List α)} (h : ∀ d ∈ ds, d.Nodup) : (product ds).Nodup := by
  induction ds with
  | nil => exact List.nodup_cons.mpr ⟨List.not_mem_nil, List.nodup_nil⟩
  | cons d ds ih =>
    have hrest := ih fun d' hd' => h d' (List.mem_cons_of_mem d hd')
    have hd := h d List.mem_cons_self
    rw [product_cons]
    induction d with
    | nil => exact List.nodup_nil
    | cons x xs ihx =>
      obtain ⟨hx, hxs⟩ := List.nodup_cons.mp hd
      rw [List.flatMap_cons, List.nodup_append]
      refine ⟨List.Pairwise.map _ (fun a b hab he => hab (List.cons.inj he).2) hrest,
        ihx ?_ hxs, ?_⟩
      · intro d' hd'
        rcases List.mem_cons.mp hd' with rfl | hd'
        · exact hxs
        · exact h d' (List.mem_cons_of_mem _ hd')
      · rintro a ha b hb rfl
        obtain ⟨_, _, rfl⟩ := List.mem_map.mp ha
        obtain ⟨y, hy, hb⟩ := List.mem_flatMap.mp hb
        obtain ⟨_, _, he⟩ := List.mem_map.mp hb
        exact hx ((List.cons.inj he).1 ▸ hy)

/-- The number of tuples, by recursion over the positions. -/
theorem length_product_cons (d : List α) (ds : List (List α)) :
    (product (d :: ds)).length = d.length * (product ds).length := by
  rw [product_cons, List.length_flatMap]
  simp

theorem count_eq_length_product (ds : List (List α)) : count ds = (product ds).length := by
  have hfold : ∀ n, ds.foldl (fun acc d => acc * d.length) n = n * (product ds).length := by
    induction ds with
    | nil => exact fun n => (Nat.mul_one n).symm
    | cons d ds ih =>
      intro n
      rw [List.foldl_cons, ih, length_product_cons, Nat.mul_assoc]
  rw [count, hfold, Nat.one_mul]

/-- A cursor that points at an element of every domain. -/
abbrev Valid (cursor : List Nat) (ds : List (List α)) : Prop :=
  List.Forall₂ (fun i d => i < d.length) cursor ds

/-- The number of tuples before the one at a cursor. -/
def rank : List Nat → List (List α) → Nat
  | i :: cursor, _ :: ds => i * (product ds).length + rank cursor ds
  | _, _ => 0

theorem rank_cons (i : Nat) (cursor : List Nat) (d : List α) (ds : List (List α)) :
    rank (i :: cursor) (d :: ds) = i * (product ds).length + rank cursor ds := rfl

/-- The cursor with some rank stands at the tuple of that number. -/
theorem product_getElem?_rank {cursor : List Nat} {ds : List (List α)} (h : Valid cursor ds) :
    (product ds)[rank cursor ds]? =
      some ((cursor.zip ds).filterMap fun e => e.2[e.1]?) := by
  induction h with
  | nil => rfl
  | @cons i d cursor ds hi htail ih =>
    have hrank : rank cursor ds < (product ds).length :=
      (List.getElem?_eq_some_iff.mp ih).1
    rw [List.zip_cons_cons, List.filterMap_cons, List.getElem?_eq_getElem hi, product_cons,
      rank_cons]
    dsimp only
    clear htail
    induction d generalizing i with
    | nil => cases hi
    | cons x xs ihx =>
      rw [List.flatMap_cons]
      cases i with
      | zero =>
        rw [Nat.zero_mul, Nat.zero_add, List.getElem?_append_left (by simpa using hrank),
          List.getElem?_map, ih]
        rfl
      | succ i =>
        have hlen : ((product ds).map (x :: ·)).length = (product ds).length := List.length_map ..
        rw [List.getElem?_append_right (by rw [hlen, Nat.succ_mul]; omega), hlen,
          show (i + 1) * (product ds).length + rank cursor ds - (product ds).length =
            i * (product ds).length + rank cursor ds by rw [Nat.succ_mul]; omega,
          ihx (Nat.lt_of_succ_lt_succ hi)]
        rfl

/-- One step adds one to the rank; at the last tuple it says that it comes around. -/
theorem step_valid {cursor : List Nat} {ds : List (List α)} (h : Valid cursor ds) :
    Valid (step cursor ds).1 ds ∧
      ((step cursor ds).2 = false → rank (step cursor ds).1 ds = rank cursor ds + 1) ∧
      ((step cursor ds).2 = true → rank (step cursor ds).1 ds = 0 ∧
        rank cursor ds + 1 = (product ds).length) := by
  induction h with
  | nil => exact ⟨.nil, nofun, fun _ => ⟨rfl, rfl⟩⟩
  | @cons i d cursor ds hi htail ih =>
    rw [step]
    rcases hstep : step cursor ds with ⟨rest, around⟩
    rw [hstep] at ih
    obtain ⟨hvalid, hmoved, haround⟩ := ih
    cases around with
    | false =>
      refine ⟨.cons hi hvalid, fun _ => ?_, nofun⟩
      rw [rank_cons, rank_cons, hmoved rfl, Nat.add_assoc]
    | true =>
      obtain ⟨hzero, hlast⟩ := haround rfl
      dsimp only at hzero ⊢
      split
      · rename_i hnext
        refine ⟨.cons hnext hvalid, fun _ => ?_, nofun⟩
        rw [rank_cons, rank_cons, hzero, Nat.add_zero, Nat.succ_mul, Nat.add_assoc, hlast]
      · rename_i hnext
        refine ⟨.cons (Nat.zero_lt_of_lt hi) hvalid, nofun, fun _ => ⟨?_, ?_⟩⟩
        · rw [rank_cons, hzero, Nat.zero_mul]
        · have hlength : d.length = i + 1 := by omega
          rw [rank_cons, length_product_cons, hlength, Nat.succ_mul, Nat.add_assoc, hlast]

private theorem take_eq_drop_product {n : Nat} {cursor : List Nat} {ds : List (List α)}
    (h : Valid cursor ds) (hn : rank cursor ds + n = (product ds).length) :
    (take n ⟨ds, cursor, false⟩).1 = (product ds).drop (rank cursor ds) := by
  induction n generalizing cursor with
  | zero => rw [take, List.drop_of_length_le (by omega)]
  | succ n ih =>
    obtain ⟨hlt, hget⟩ := List.getElem?_eq_some_iff.mp (product_getElem?_rank h)
    obtain ⟨hvalid, hmoved, haround⟩ := step_valid h
    rw [List.drop_eq_getElem_cons hlt, hget]
    change _ :: (take n ⟨ds, (step cursor ds).1, (step cursor ds).2⟩).1 = _
    cases hround : (step cursor ds).2 with
    | false =>
      rw [ih hvalid (by rw [hmoved hround]; omega), hmoved hround]
      rfl
    | true =>
      have hzero : n = 0 := by have := (haround hround).2; omega
      rw [hzero, List.drop_of_length_le (by omega)]
      rfl

/-- The enumeration finds all tuples, in their natural order. -/
theorem tuples_eq_product (ds : List (List α)) : tuples ds = product ds := by
  rw [tuples, ofDomains, count_eq_length_product]
  cases hempty : ds.any List.isEmpty with
  | true =>
    obtain ⟨d, hd, hnil⟩ := List.any_eq_true.mp hempty
    rw [product_eq_nil (List.isEmpty_iff.mp hnil ▸ hd)]
    rfl
  | false =>
    have hvalid : Valid (ds.map fun _ => 0) ds := by
      rw [Valid, List.forall₂_map_left_iff, List.forall₂_same]
      intro d hd
      have := List.any_eq_false.mp hempty d hd
      exact List.length_pos_iff.mpr fun hnil => this (List.isEmpty_iff.mpr hnil)
    have hrank : rank (ds.map fun _ => 0) ds = 0 := by
      clear hvalid hempty
      induction ds with
      | nil => rfl
      | cons d ds ih => rw [List.map_cons, rank_cons, ih, Nat.zero_mul]
    rw [take_eq_drop_product hvalid (by rw [hrank, Nat.zero_add]), hrank, List.drop_zero]

end CrossProduct

end RuleGrounding
