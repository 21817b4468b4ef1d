import RuleGrounding.Proofs.Decimal.Fields

/-!
# Binary numbers are rounded to themselves

Rounding drops the bits that a binary number has no place for. Where all these are zero, nothing is
lost: a product or a quotient whose exact value is a binary number comes out as that number.
-/

namespace RuleGrounding

namespace Binary

open Float.Model Float.Model.UnpackedFloat

/-- Mantissa and exponent of a finite binary number that is not zero: the mantissa fills its places
unless the exponent is the least one. -/
structure Canonical (mantissa : Nat) (exponent : Int) : Prop where
  /-- The number is not zero. -/
  pos : 0 < mantissa
  /-- The mantissa has at most 53 places. -/
  lt : mantissa < 2 ^ 53
  /-- The least exponent. -/
  le : -1074 ≤ exponent
  /-- The greatest exponent. -/
  ge : exponent ≤ 971
  /-- Only numbers of the least exponent have fewer places. -/
  full : exponent = -1074 ∨ 2 ^ 52 ≤ mantissa

variable {M n k Q : Nat} {E c : Int} {s : Sign}

section Places

theorem log2_mul_two_pow (h : 0 < n) (k : Nat) : (n * 2 ^ k).log2 = n.log2 + k := by
  induction k with
  | zero => rw [Nat.pow_zero, Nat.mul_one, Nat.add_zero]
  | succ k ih =>
    have hpos : n * 2 ^ k ≠ 0 := (Nat.mul_pos h (Nat.two_pow_pos k)).ne'
    rw [Nat.pow_succ, ← Nat.mul_assoc, Nat.mul_comm _ 2, Nat.log2_two_mul hpos, ih, Nat.add_assoc]

theorem targetExponent_eq (t : Int) :
    Format.binary64.targetExponent t = max (t - 53) (-1074) := rfl

/-- The exponent of a binary number is the one that rounding aims at. -/
theorem Canonical.targetExponent (h : Canonical M E) :
    Format.binary64.targetExponent (totalExponent M E) = E := by
  have hlog : M.log2 < 53 := (Nat.log2_lt h.pos.ne').mpr h.lt
  have hle := h.le
  rw [targetExponent_eq, totalExponent]
  rcases h.full with hE | hfull
  · omega
  · have : 52 ≤ M.log2 := (Nat.le_log2 h.pos.ne').mpr hfull
    omega

end Places

section Rounding

/-- Zeros are shifted out without a trace. -/
theorem shiftRight_exact (n k : Nat) :
    (⟨n * 2 ^ k, false, false⟩ : ExtendedMantissa) >>> k = ⟨n, false, false⟩ := by
  change Nat.repeat ExtendedMantissa.shiftRightOne k ⟨n * 2 ^ k, false, false⟩ = _
  induction k generalizing n with
  | zero => rw [Nat.pow_zero, Nat.mul_one]; rfl
  | succ k ih =>
    have hshift : n * 2 ^ (k + 1) = 2 * n * 2 ^ k := by ring
    rw [hshift, Nat.repeat, ih, ExtendedMantissa.shiftRightOne]
    simp

theorem shiftToTargetExponent_exact (h : Canonical M E) (k : Nat) :
    shiftToTargetExponent .binary64 (M * 2 ^ k) (E - k) .exact = (⟨M, false, false⟩, E) := by
  have htotal : totalExponent (M * 2 ^ k) (E - k) = totalExponent M E := by
    rw [totalExponent, totalExponent, log2_mul_two_pow h.pos]
    omega
  have hshift : (E - (E - k)).toNat = k := by omega
  simp only [shiftToTargetExponent, shiftToExponent, htotal, h.targetExponent, hshift]
  rw [ExtendedMantissa.ofMantissaAndAccuracy, shiftRight_exact]
  congr 1
  omega

/-- A binary number that is written with more places than it needs is rounded to itself. -/
theorem roundWithAccuracy_exact (h : Canonical M E) (s : Sign) (k : Nat) :
    roundWithAccuracy .binary64 s (M * 2 ^ k) (E - k) .exact = .finite s M E h.pos := by
  have hagain := shiftToTargetExponent_exact h 0
  rw [Nat.pow_zero, Nat.mul_one, Int.natCast_zero, Int.sub_zero] at hagain
  have hrounded : (⟨M, false, false⟩ : ExtendedMantissa).roundedMantissa = M := rfl
  simp only [roundWithAccuracy, shiftToTargetExponent_exact h, hrounded, hagain]
  rw [dif_neg h.pos.ne']

end Rounding

section Operations

/-- A natural number that is a binary number is rounded to that. -/
theorem round_natural_exact (h : Canonical M E) (hn : 0 < n)
    (hvalue : n * 2 ^ (-E).toNat = M * 2 ^ E.toNat) :
    roundWithAccuracy .binary64 s (n * 2 ^ 53) (-53) .exact = .finite s M E h.pos := by
  have hplaces : n * 2 ^ 53 = M * 2 ^ (E + 53).toNat ∧ -53 ≤ E := by
    rcases Int.le_total 0 E with hE | hE
    · obtain ⟨a, rfl⟩ := Int.eq_ofNat_of_zero_le hE
      have ha : (-(a : Int)).toNat = 0 := by omega
      have ha' : ((a : Int) + 53).toNat = a + 53 := by omega
      rw [ha, Int.toNat_natCast, Nat.pow_zero, Nat.mul_one] at hvalue
      rw [ha', hvalue, Nat.pow_add, Nat.mul_assoc]
      exact ⟨rfl, by omega⟩
    · obtain ⟨a, ha⟩ := Int.eq_ofNat_of_zero_le (Int.neg_nonneg_of_nonpos hE)
      have hzero : E.toNat = 0 := by omega
      rw [ha, hzero, Int.toNat_natCast, Nat.pow_zero, Nat.mul_one] at hvalue
      have hle : 2 ^ a ≤ M := hvalue ▸ Nat.le_mul_of_pos_left _ hn
      have hlt : a < 53 := (Nat.pow_lt_pow_iff_right (by decide)).mp (hle.trans_lt h.lt)
      have ha' : (E + 53).toNat = 53 - a := by omega
      rw [ha', ← hvalue, Nat.mul_assoc, ← Nat.pow_add, Nat.add_sub_cancel' hlt.le]
      exact ⟨rfl, by omega⟩
  have hexponent : (-53 : Int) = E - ((E + 53).toNat : Int) := by omega
  rw [hplaces.1, hexponent]
  exact roundWithAccuracy_exact h s _

/-- The quotient of natural numbers is computed to at least as many places as a binary number that
is its exact value has. -/
theorem target_le (h : Canonical M E) (hn : 0 < n) (hQ : 0 < Q)
    (hvalue : n * 2 ^ (-E).toNat = M * 2 ^ E.toNat * Q) :
    min 0 (Format.binary64.targetExponent (totalExponent n 0 - totalExponent Q 0)) ≤ E := by
  rcases Int.le_total 0 E with hE | hE
  · exact (Int.min_le_left _ _).trans hE
  · refine (Int.min_le_right _ _).trans ?_
    have hzero : E.toNat = 0 := by omega
    rw [hzero, Nat.pow_zero, Nat.mul_one] at hvalue
    have hlog : (M * Q).log2 < M.log2 + Q.log2 + 2 := by
      refine (Nat.log2_lt (Nat.mul_pos h.pos hQ).ne').mpr ?_
      calc M * Q < 2 ^ (M.log2 + 1) * 2 ^ (Q.log2 + 1) :=
            Nat.mul_lt_mul'' Nat.lt_log2_self Nat.lt_log2_self
        _ = 2 ^ (M.log2 + Q.log2 + 2) := by ring
    rw [← hvalue, log2_mul_two_pow hn] at hlog
    have htarget := h.targetExponent
    rw [targetExponent_eq, totalExponent] at htarget ⊢
    rw [totalExponent]
    omega

/-- Two natural numbers whose quotient is a binary number have it as their quotient, with more
places than it needs and without a remainder. -/
theorem divCore_exact (h : Canonical M E) (hn : 0 < n) (hQ : 0 < Q)
    (hvalue : n * 2 ^ (-E).toNat = M * 2 ^ E.toNat * Q) :
    ∃ k : Nat, divCore .binary64 n 0 Q 0 = (M * 2 ^ k, E - k, .exact) := by
  have htarget := target_le h hn hQ hvalue
  obtain ⟨t, ht⟩ : ∃ t, t = min 0 (Format.binary64.targetExponent
    (totalExponent n 0 - totalExponent Q 0)) := ⟨_, rfl⟩
  rw [← ht] at htarget
  have hnonpos : t ≤ 0 := ht ▸ Int.min_le_left _ _
  have hquotient : n * 2 ^ (-t).toNat = M * 2 ^ (E - t).toNat * Q := by
    rcases Int.le_total 0 E with hE | hE
    · have hzero : (-E).toNat = 0 := by omega
      have hsplit : (E - t).toNat = E.toNat + (-t).toNat := by omega
      rw [hzero, Nat.pow_zero, Nat.mul_one] at hvalue
      rw [hvalue, hsplit, Nat.pow_add]
      ring
    · have hzero : E.toNat = 0 := by omega
      have hsplit : (-t).toNat = (-E).toNat + (E - t).toNat := by omega
      rw [hzero, Nat.pow_zero, Nat.mul_one] at hvalue
      rw [hsplit, Nat.pow_add, ← Nat.mul_assoc, hvalue]
      ring
  have hexponent : t = E - ((E - t).toNat : Int) := by omega
  refine ⟨(E - t).toNat, ?_⟩
  rw [← hexponent]
  simp only [divCore, Int.sub_zero, ← ht, Int.zero_sub, Nat.shiftLeft_eq, hquotient,
    Nat.mul_div_cancel _ hQ, Nat.mul_mod_left, accuracyOfFraction, if_true]

/-- So they are divided to that binary number. -/
theorem div_exact (h : Canonical M E) (hn : 0 < n) (hQ : 0 < Q)
    (hvalue : n * 2 ^ (-E).toNat = M * 2 ^ E.toNat * Q) :
    UnpackedFloat.div .binary64 (.finite .positive n 0 hn) (.finite .positive Q 0 hQ) =
      .finite .positive M E h.pos := by
  obtain ⟨k, hk⟩ := divCore_exact h hn hQ hvalue
  rw [UnpackedFloat.div, hk]
  exact roundWithAccuracy_exact h _ k

/-- A decimal within range that is a binary number is read as that. -/
theorem ofScientific_exact (h : Canonical M E) (hn : 0 < n) (hlow : -(2048 + (n.log2 : Int)) ≤ c)
    (hhigh : c ≤ 2048)
    (hvalue : n * 10 ^ c.toNat * 2 ^ (-E).toNat = M * 2 ^ E.toNat * 10 ^ (-c).toNat) :
    UnpackedFloat.ofScientific .binary64 n c = .finite .positive M E h.pos := by
  rw [UnpackedFloat.ofScientific, dif_neg hn.ne']
  rw [if_neg (by change ¬ c > 2048; omega),
    if_neg (by change ¬ c < -(2048 + (n.log2 : Int)); omega)]
  split
  · rename_i hc
    have hzero : (-c).toNat = 0 := by omega
    rw [hzero, Nat.pow_zero, Nat.mul_one] at hvalue
    have hproduct : n <<< 53 * 10 ^ c.toNat = n * 10 ^ c.toNat * 2 ^ 53 := by
      rw [Nat.shiftLeft_eq]
      ring
    have hpos : 0 < n * 10 ^ c.toNat := Nat.mul_pos hn (Nat.pow_pos (by decide))
    change roundWithAccuracy .binary64 .positive (n <<< 53 * 10 ^ c.toNat) (-53) .exact = _
    rw [hproduct]
    exact round_natural_exact h hpos hvalue
  · rename_i hc
    have hzero : c.toNat = 0 := by omega
    rw [hzero, Nat.pow_zero, Nat.mul_one] at hvalue
    exact div_exact h hn (Nat.pow_pos (by decide)) hvalue

end Operations

end Binary

end RuleGrounding
