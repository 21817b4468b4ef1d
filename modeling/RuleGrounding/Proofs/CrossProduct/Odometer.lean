import Mathlib.Algebra.BigOperators.Group.List.Basic
import RuleGrounding.Proofs.CrossProduct

/-!
# Counting through a cross product

An enumeration counts like an odometer. At its n-th request the cursor has the digits of n in
mixed radix, where the sizes of the domains are the radices and the last digit counts units, so
each combination of indices comes once and in this order. When the cursor comes around, the
enumeration is over and stays so.
-/

namespace RuleGrounding

namespace CrossProduct

variable {α : Type} {ds : List (List α)}

/-- The digits of a number in mixed radix, of which the last one counts units. -/
def digits : List Nat → Nat → List Nat
  | [], _ => []
  | r :: rs, n => n / rs.prod % r :: digits rs n

/-- The sizes of the domains, as the radices in which the tuples are counted. -/
def radices (ds : List (List α)) : List Nat := ds.map List.length

@[simp] theorem radices_cons (d : List α) (ds : List (List α)) :
    radices (d :: ds) = d.length :: radices ds := rfl

/-- The elements that the digits of a number point at, with nothing where they point outside of a
domain. -/
def selection (ds : List (List α)) (n : Nat) : List (Option α) :=
  List.zipWith (fun d i => d[i]?) ds (digits (radices ds) n)

/-- The enumeration after some requests for a tuple. -/
def after (c : CrossProduct α) (n : Nat) : CrossProduct α := (take n c).2

section Digits

theorem length_product (ds : List (List α)) :
    (product ds).length = (radices ds).prod := by
  induction ds with
  | nil => rfl
  | cons d ds ih => rw [length_product_cons, ih, radices_cons, List.prod_cons]

/-- There are no tuples exactly if some domain is empty. -/
theorem prod_eq_zero_iff : (radices ds).prod = 0 ↔ [] ∈ ds := by
  rw [← length_product, List.length_eq_zero_iff]
  constructor
  · intro hnil
    by_contra hall
    obtain ⟨t, ht⟩ := exists_mem_product hall
    rw [hnil] at ht
    cases ht
  · exact product_eq_nil

/-- What lies beyond the highest digit does not show. -/
theorem digits_add_mul_prod (rs : List Nat) (n k : Nat) :
    digits rs (n + k * rs.prod) = digits rs n := by
  induction rs generalizing k with
  | nil => rfl
  | cons r rs ih =>
    have hshift : n + k * (r :: rs).prod = n + k * r * rs.prod := by
      rw [List.prod_cons, Nat.mul_assoc]
    have hdigit : (n + k * r * rs.prod) / rs.prod % r = n / rs.prod % r := by
      rcases Nat.eq_zero_or_pos rs.prod with hzero | hpos
      · rw [hzero, Nat.mul_zero, Nat.add_zero]
      · rw [Nat.add_mul_div_right _ _ hpos, Nat.add_mul_mod_self_right]
    rw [hshift, digits, digits, hdigit, ih]

theorem digits_mod (rs : List Nat) (n : Nat) : digits rs (n % rs.prod) = digits rs n := by
  have hsplit := digits_add_mul_prod rs (n % rs.prod) (n / rs.prod)
  rw [Nat.mod_add_div'] at hsplit
  exact hsplit.symm

theorem digits_zero (rs : List Nat) : digits rs 0 = rs.map fun _ => 0 := by
  induction rs with
  | nil => rfl
  | cons r rs ih => rw [digits, ih, Nat.zero_div, Nat.zero_mod, List.map_cons]

theorem rank_lt {cursor : List Nat} (h : Valid cursor ds) :
    rank cursor ds < (radices ds).prod := by
  rw [← length_product]
  exact (List.getElem?_eq_some_iff.mp (product_getElem?_rank h)).1

/-- A cursor is the digits of its rank. -/
theorem digits_rank {cursor : List Nat} (h : Valid cursor ds) :
    digits (radices ds) (rank cursor ds) = cursor := by
  induction h with
  | nil => rfl
  | @cons i d cursor ds hi htail ih =>
    have hrank := rank_lt htail
    have hnumber : rank (i :: cursor) (d :: ds) =
        rank cursor ds + i * (radices ds).prod := by
      rw [rank, length_product, Nat.add_comm]
    have hdigit : (rank cursor ds + i * (radices ds).prod) /
        (radices ds).prod % d.length = i := by
      rw [Nat.add_mul_div_right _ _ (Nat.zero_lt_of_lt hrank), Nat.div_eq_of_lt hrank,
        Nat.zero_add, Nat.mod_eq_of_lt hi]
    rw [hnumber, radices_cons, digits, hdigit, digits_add_mul_prod, ih]

/-- The digits of a number below the number of tuples are a cursor with this rank. -/
theorem valid_digits {n : Nat} (hn : n < (radices ds).prod) :
    Valid (digits (radices ds) n) ds ∧
      rank (digits (radices ds) n) ds = n := by
  induction ds generalizing n with
  | nil => exact ⟨.nil, (Nat.lt_one_iff.mp hn).symm⟩
  | cons d ds ih =>
    rw [radices_cons, List.prod_cons] at hn
    have hpos : 0 < (radices ds).prod := Nat.pos_of_mul_pos_left (Nat.zero_lt_of_lt hn)
    obtain ⟨hvalid, hrank⟩ := ih (Nat.mod_lt n hpos)
    rw [digits_mod] at hvalid hrank
    have hdigit : n / (radices ds).prod < d.length :=
      (Nat.div_lt_iff_lt_mul hpos).mpr hn
    rw [radices_cons, digits, Nat.mod_eq_of_lt hdigit]
    refine ⟨.cons hdigit hvalid, ?_⟩
    rw [rank, hrank, length_product]
    exact Nat.div_add_mod' n _

/-- Every cursor has the digits of exactly one number. -/
theorem existsUnique_digits {cursor : List Nat} (h : Valid cursor ds) :
    ∃! n, n < (radices ds).prod ∧ digits (radices ds) n = cursor := by
  refine ⟨rank cursor ds, ⟨rank_lt h, digits_rank h⟩, ?_⟩
  rintro n ⟨hn, rfl⟩
  exact (valid_digits hn).2.symm

/-- A cursor points at an element of every domain. -/
theorem map_some_elements {cursor : List Nat} (h : Valid cursor ds) :
    ((cursor.zip ds).filterMap fun e => e.2[e.1]?).map some =
      List.zipWith (fun d i => d[i]?) ds cursor := by
  induction h with
  | nil => rfl
  | cons hi _ ih =>
    rw [List.zip_cons_cons, List.filterMap_cons, List.getElem?_eq_getElem hi]
    dsimp only
    rw [List.map_cons, ih, List.zipWith_cons_cons, List.getElem?_eq_getElem hi]

/-- The tuples in their natural order are those of the numbers in their order. -/
theorem map_some_product (ds : List (List α)) :
    (product ds).map (List.map some) =
      (List.range (radices ds).prod).map (selection ds) := by
  refine List.ext_getElem? fun n => ?_
  rw [List.getElem?_map, List.getElem?_map]
  by_cases hn : n < (radices ds).prod
  · obtain ⟨hvalid, hrank⟩ := valid_digits hn
    have hget := product_getElem?_rank hvalid
    rw [hrank] at hget
    rw [hget, List.getElem?_range hn, Option.map_some, Option.map_some,
      map_some_elements hvalid, selection]
  · have hproduct : (product ds)[n]? = none := by
      rw [List.getElem?_eq_none_iff, length_product]
      omega
    have hrange : (List.range (radices ds).prod)[n]? = none := by
      rw [List.getElem?_eq_none_iff, List.length_range]
      omega
    rw [hproduct, hrange]
    rfl

end Digits

section Requests

variable {c d : CrossProduct α} {t : List α}

theorem after_of_next?_eq_none (h : c.next? = none) (n : Nat) : c.after n = c := by
  cases n with
  | zero => rfl
  | succ n => rw [after, take, h]

theorem after_succ_of_next?_eq_some (h : c.next? = some (t, d)) (n : Nat) :
    c.after (n + 1) = d.after n := by
  rw [after, take, h]
  rfl

/-- One more request goes on from where the ones before it have led. -/
theorem after_succ (c : CrossProduct α) (n : Nat) : c.after (n + 1) = (c.after n).after 1 := by
  induction n generalizing c with
  | zero => rfl
  | succ n ih =>
    rcases h : c.next? with _ | ⟨t, d⟩
    · simp only [after_of_next?_eq_none h]
    · rw [after_succ_of_next?_eq_some h, after_succ_of_next?_eq_some h, ih]

/-- A request while the cursor points at a tuple gives it and steps on. -/
theorem next?_mk (ds : List (List α)) (cursor : List Nat) :
    (⟨ds, cursor, false⟩ : CrossProduct α).next? =
      some ((cursor.zip ds).filterMap fun e => e.2[e.1]?,
        ⟨ds, (step cursor ds).1, (step cursor ds).2⟩) :=
  rfl

theorem after_one_mk (ds : List (List α)) (cursor : List Nat) :
    (⟨ds, cursor, false⟩ : CrossProduct α).after 1 =
      ⟨ds, (step cursor ds).1, (step cursor ds).2⟩ :=
  rfl

/-- Before the last tuple a step leads from the digits of a number to those of the next one. -/
theorem step_digits {n : Nat} (hn : n + 1 < (radices ds).prod) :
    step (digits (radices ds) n) ds = (digits (radices ds) (n + 1), false) := by
  obtain ⟨hvalid, hrank⟩ := valid_digits (Nat.lt_of_succ_lt hn)
  obtain ⟨hnext, hmoved, haround⟩ := step_valid hvalid
  have hgoes : (step (digits (radices ds) n) ds).2 = false := by
    cases haway : (step (digits (radices ds) n) ds).2 with
    | false => rfl
    | true =>
      have hlast := (haround haway).2
      rw [hrank, length_product] at hlast
      exact absurd hlast (Nat.ne_of_lt hn)
  refine Prod.ext ?_ hgoes
  rw [← digits_rank hnext, hmoved hgoes, hrank]

/-- At the last one it comes around. -/
theorem step_digits_last {n : Nat} (hn : n + 1 = (radices ds).prod) :
    (step (digits (radices ds) n) ds).2 = true ∧
      (step (digits (radices ds) n) ds).1.length = ds.length := by
  obtain ⟨hvalid, hrank⟩ := valid_digits (Nat.lt_of_succ_le (Nat.le_of_eq hn))
  obtain ⟨hnext, hmoved, -⟩ := step_valid hvalid
  refine ⟨?_, List.Forall₂.length_eq hnext⟩
  cases haway : (step (digits (radices ds) n) ds).2 with
  | true => rfl
  | false =>
    -- Otherwise the step would lead to a cursor whose rank is the number of tuples.
    have hrank' := rank_lt hnext
    rw [hmoved haway, hrank, hn] at hrank'
    exact absurd hrank' (Nat.lt_irrefl _)

/-- While there are tuples left, the cursor has the digits of the number of requests. -/
theorem after_ofDomains {n : Nat} (hn : n < (radices ds).prod) :
    (ofDomains ds).after n = ⟨ds, digits (radices ds) n, false⟩ := by
  induction n with
  | zero =>
    -- There is a first tuple, so no domain is empty.
    have hsome : ds.any List.isEmpty = false := by
      rw [List.any_eq_false]
      intro d hd hempty
      have hzero := prod_eq_zero_iff.mpr (List.isEmpty_iff.mp hempty ▸ hd)
      exact absurd hzero (Nat.ne_of_gt hn)
    rw [digits_zero, radices, List.map_map]
    exact congrArg (CrossProduct.mk ds (ds.map fun _ => 0)) hsome
  | succ n ih =>
    rw [after_succ, ih (Nat.lt_of_succ_lt hn), after_one_mk, step_digits hn]

/-- After the last tuple nothing is left. -/
theorem exhausted_after_ofDomains (ds : List (List α)) :
    ∃ cursor : List Nat, cursor.length = ds.length ∧
      (ofDomains ds).after (radices ds).prod = ⟨ds, cursor, true⟩ := by
  cases hcount : (radices ds).prod with
  | zero =>
    have hempty : ds.any List.isEmpty = true :=
      List.any_eq_true.mpr ⟨[], prod_eq_zero_iff.mp hcount, rfl⟩
    exact ⟨ds.map fun _ => 0, List.length_map .., congrArg (CrossProduct.mk ds _) hempty⟩
  | succ n =>
    obtain ⟨haround, hlength⟩ := step_digits_last hcount.symm
    refine ⟨_, hlength, ?_⟩
    rw [after_succ, after_ofDomains (hcount ▸ Nat.lt_succ_self n), after_one_mk, haround]

/-- And it stays so. -/
theorem after_ofDomains_of_le {n : Nat} (hn : (radices ds).prod ≤ n) :
    (ofDomains ds).after n = (ofDomains ds).after (radices ds).prod := by
  obtain ⟨cursor, -, hover⟩ := exhausted_after_ofDomains ds
  induction hn with
  | refl => rfl
  | step _ ih =>
    rw [after_succ, ih, hover]
    rfl

end Requests

section Size

theorem min_mul_min (a b limit : Nat) : min (min a limit * b) limit = min (a * b) limit := by
  rcases Nat.le_total a limit with ha | ha
  · rw [Nat.min_eq_left ha]
  · rw [Nat.min_eq_right ha]
    rcases Nat.eq_zero_or_pos b with rfl | hb
    · rfl
    · have hlimit : limit ≤ limit * b := Nat.le_mul_of_pos_right limit hb
      have hmore : limit ≤ a * b := Nat.le_trans hlimit (Nat.mul_le_mul_right b ha)
      rw [Nat.min_eq_right hlimit, Nat.min_eq_right hmore]

/-- Cutting off every partial product comes to cutting off the whole one. -/
theorem size_eq (c : CrossProduct α) :
    c.size = min (radices c.domains).prod sizeLimit := by
  have hfold : ∀ (ds : List (List α)) (a : Nat),
      ds.foldl (fun acc d => Nat.min (acc * d.length) sizeLimit) (min a sizeLimit) =
        min (a * (radices ds).prod) sizeLimit := by
    intro ds
    induction ds with
    | nil =>
      intro a
      rw [radices, List.map_nil, List.prod_nil, Nat.mul_one]
      rfl
    | cons d ds ih =>
      intro a
      have hfirst : Nat.min (min a sizeLimit * d.length) sizeLimit =
          min (a * d.length) sizeLimit := min_mul_min a d.length sizeLimit
      rw [List.foldl_cons, hfirst, ih, radices_cons, List.prod_cons, Nat.mul_assoc]
  have hone : min 1 sizeLimit = 1 := rfl
  rw [size, ← hone, hfold, Nat.one_mul]

end Size

/-- The enumeration of some domains gives as many tuples as the product of their sizes. At the n-th
request it gives the tuple that the digits of n in mixed radix select, one element from each domain,
and after the last tuple nothing, however often it is asked. Each combination of indices is the
digits of exactly one such number. Without positions there is the empty tuple alone, and without
elements for some position there is no tuple. A cursor that is read always has an index within its
domain for each position. The size that is told is the product, cut off at the limit, and so it is
zero exactly if there is no tuple. -/
theorem enumerates_in_odometer_order (ds : List (List α)) :
    (tuples ds).map (List.map some) =
        (List.range (radices ds).prod).map (selection ds) ∧
    (∀ n < (radices ds).prod, ∃ t, t.map some = selection ds n ∧
      ((ofDomains ds).after n).next? = some (t, (ofDomains ds).after (n + 1))) ∧
    (∀ n, (radices ds).prod ≤ n → ((ofDomains ds).after n).next? = none) ∧
    (∀ cursor, Valid cursor ds →
      ∃! n, n < (radices ds).prod ∧ digits (radices ds) n = cursor) ∧
    (ds = [] → tuples ds = [[]]) ∧ ([] ∈ ds → tuples ds = []) ∧
    (∀ n, ((ofDomains ds).after n).domains = ds ∧
      ((ofDomains ds).after n).cursor.length = ds.length ∧
      (((ofDomains ds).after n).exhausted = false → Valid ((ofDomains ds).after n).cursor ds)) ∧
    (ofDomains ds).size = min (radices ds).prod sizeLimit ∧
    ((ofDomains ds).size = 0 ↔ tuples ds = []) := by
  obtain ⟨cursor, hlength, hover⟩ := exhausted_after_ofDomains ds
  have hsize : (ofDomains ds).size = min (radices ds).prod sizeLimit := size_eq _
  refine ⟨?_, ?_, ?_, fun _ h => existsUnique_digits h, ?_, ?_, ?_, hsize, ?_⟩
  · rw [tuples_eq_product]
    exact map_some_product ds
  · intro n hn
    refine ⟨_, map_some_elements (valid_digits hn).1, ?_⟩
    rw [after_succ, after_ofDomains hn, next?_mk, after_one_mk]
  · intro n hn
    rw [after_ofDomains_of_le hn, hover]
    rfl
  · rintro rfl
    rfl
  · intro hempty
    rw [tuples_eq_product, product_eq_nil hempty]
  · intro n
    by_cases hn : n < (radices ds).prod
    · have hvalid := (valid_digits hn).1
      rw [after_ofDomains hn]
      exact ⟨rfl, List.Forall₂.length_eq hvalid, fun _ => hvalid⟩
    · rw [after_ofDomains_of_le (Nat.le_of_not_lt hn), hover]
      exact ⟨rfl, hlength, nofun⟩
  · have hlimit : 0 < sizeLimit := by decide
    rw [hsize, tuples_eq_product, ← List.length_eq_zero_iff, length_product]
    omega

/-- The fourth of six tuples: the first position moves on when the last one comes around. -/
example : selection [["a", "b"], ["x"], ["1", "2", "3"]] 3 =
    [some "b", some "x", some "1"] := rfl

end CrossProduct

end RuleGrounding
