import Mathlib
import RuleGrounding.Decimal

/-!
# The fields of a binary number

A finite binary number is a sign, an exponent field and a fraction field. Sign changes touch the
sign only, and the fields are the magnitude that `Dyadic.ofBits` reads off the bits.
-/

namespace RuleGrounding

namespace Binary

open Float.Model Float.Model.UnpackedFloat

variable {s : Sign} {e : BitVec 11} {m : BitVec 52}

/-- The finite number of a sign, an exponent field and a fraction field. The least exponent has no
implicit bit. -/
def value (s : Sign) (e : BitVec 11) (m : BitVec 52) : UnpackedFloat :=
  if e.toNat = 0 then
    if h : m.toNat = 0 then .zero s else .finite s m.toNat (-1074) (Nat.pos_of_ne_zero h)
  else .finite s (2 ^ 52 + m.toNat) (e.toNat - 1075) (Nat.lt_add_right _ (by decide))

section Bits

theorem toNat_append {v w : Nat} (x : BitVec v) (y : BitVec w) :
    (x ++ y).toNat = x.toNat * 2 ^ w + y.toNat := by
  rw [BitVec.toNat_append, ← Nat.shiftLeft_add_eq_or_of_lt y.isLt, Nat.shiftLeft_eq]

/-- The fields side by side, as one number. -/
theorem toNat_packComponents (s : Sign) (e : BitVec 11) (m : BitVec 52) :
    (packComponents .binary64 s e m).toNat =
      s.toBitVec.toNat * 2 ^ 63 + e.toNat * 2 ^ 52 + m.toNat := by
  rw [packComponents, toNat_append, toNat_append]
  omega

/-- Any bits are three fields side by side. -/
theorem exists_packComponents (b : BitVec Format.binary64.numBits) :
    ∃ s e m, b = packComponents .binary64 s e m :=
  ⟨_, _, _, (packComponents_unpackSign_unpackExponent_unpackMantissa b).symm⟩

end Bits

section Packing

theorem finite_congr {n n' : Nat} {k k' : Int} (hn : n = n') (hk : k = k') (hpos : 0 < n)
    (hpos' : 0 < n') : UnpackedFloat.finite s n k hpos = .finite s n' k' hpos' := by
  subst hn hk
  rfl

theorem toNat_lt_of_ne (he : e ≠ -1#11) : e.toNat < 2047 := by
  have hlt : e.toNat < 2048 := e.isLt
  have hne : e.toNat ≠ 2047 := fun h => he (BitVec.eq_of_toNat_eq h)
  omega

/-- Bits whose exponent field is not the greatest one are unpacked to the number of their fields. -/
theorem unpack_packComponents (he : e ≠ -1#11) :
    UnpackedFloat.unpack .binary64 (packComponents .binary64 s e m) = value s e m := by
  have hbias : ((Format.binary64.exponentBias : Nat) : Int) = 1023 := rfl
  simp only [UnpackedFloat.unpack, unpackMantissa_packComponents, unpackExponent_packComponents,
    unpackSign_packComponents, Sign.ofBitVec_toBitVec, if_neg he, value, hbias]
  by_cases hzero : e = 0#11
  · subst hzero
    have hfield : (0#11).toNat = 0 := rfl
    rw [if_pos rfl, if_pos hfield]
    by_cases hm : m = 0#52
    · subst hm
      rfl
    · have hm' : m.toNat ≠ 0 := fun h => hm (BitVec.eq_of_toNat_eq h)
      rw [dif_neg hm, dif_neg hm']
      exact finite_congr rfl rfl _ _
  · have hzero' : e.toNat ≠ 0 := fun h => hzero (BitVec.eq_of_toNat_eq h)
    rw [if_neg hzero, if_neg hzero']
    exact finite_congr (toNat_append 1#1 m) rfl _ _

/-- Conversely, the number is packed into the fields that it came from. -/
theorem pack_value (he : e ≠ -1#11) :
    UnpackedFloat.pack .binary64 (value s e m) = packComponents .binary64 s e m := by
  have hnumber : isNaNBits (packComponents .binary64 s e m) = false := by
    rw [isNaNBits, unpackExponent_packComponents]
    exact decide_eq_false fun h => he h.1
  rw [← unpack_packComponents he, pack_unpack, hnumber, if_neg Bool.false_ne_true]

end Packing

section Finite

variable {x y : Float}

end Finite

section Numbers

variable {x : Float}

/-- The binary number of a sign and two fields. -/
def number (s : Sign) (e : BitVec 11) (m : BitVec 52) : Float :=
  .ofModel (.pack (value s e m))

theorem unpack_number (he : e ≠ -1#11) : (number s e m).toModel.unpack = value s e m := by
  change UnpackedFloat.unpack _ (UnpackedFloat.pack .binary64 (value s e m)) = _
  rw [pack_value he, unpack_packComponents he]

/-- The bits of the number. -/
theorem toNat_toBits_number (he : e ≠ -1#11) :
    (number s e m).toBits.toNat = s.toBitVec.toNat * 2 ^ 63 + e.toNat * 2 ^ 52 + m.toNat := by
  change (UnpackedFloat.pack .binary64 (value s e m)).toNat = _
  rw [pack_value he, toNat_packComponents]

/-- Every finite number has fields. -/
theorem exists_number (h : x.isFinite = true) : ∃ s e m, e ≠ -1#11 ∧ x = number s e m := by
  obtain ⟨s, e, m, hbits⟩ := exists_packComponents x.toBits.toBitVec
  have he : e ≠ -1#11 := by
    rintro rfl
    change (UnpackedFloat.unpack .binary64 x.toBits.toBitVec).isFinite = true at h
    rw [hbits] at h
    simp only [UnpackedFloat.unpack, unpackExponent_packComponents, if_true] at h
    split at h <;> cases h
  refine ⟨s, e, m, he, Float.toBits_inj.mp (UInt64.toNat_inj.mp ?_)⟩
  rw [toNat_toBits_number he, ← toNat_packComponents, ← hbits]
  rfl

theorem abs_number (he : e ≠ -1#11) : (number s e m).abs = number .positive e m := by
  change Float.ofModel (.pack (number s e m).toModel.unpack.abs) = _
  rw [unpack_number he, number]
  congr 2
  rw [value, value]
  split
  · split <;> rfl
  · rfl

theorem neg_number (he : e ≠ -1#11) : -number s e m = number (-s) e m := by
  change Float.ofModel (.pack (number s e m).toModel.unpack.neg) = _
  rw [unpack_number he, number]
  congr 2
  rw [value, value]
  split
  · split <;> rfl
  · rfl

/-- What the bits of a positive number encode are its mantissa and its exponent. -/
theorem ofBits_number (he : e ≠ -1#11) :
    Dyadic.ofBits (number .positive e m).toBits =
      if e.toNat = 0 then ⟨m.toNat, -1074⟩ else ⟨m.toNat + 2 ^ 52, (e.toNat : Int) - 1075⟩ := by
  have he' := e.isLt
  have hm := m.isLt
  have hbits : (number .positive e m).toBits.toNat = e.toNat * 2 ^ 52 + m.toNat := by
    rw [toNat_toBits_number he]
    exact congrArg (· + m.toNat) (Nat.zero_add _)
  have hfield : (e.toNat * 2 ^ 52 + m.toNat) / 2 ^ 52 % 2 ^ 11 = e.toNat := by omega
  have hfraction : (e.toNat * 2 ^ 52 + m.toNat) % 2 ^ 52 = m.toNat := by omega
  simp only [Dyadic.ofBits, Nat.pow_eq, hbits, hfield, hfraction]

end Numbers

end Binary

end RuleGrounding
