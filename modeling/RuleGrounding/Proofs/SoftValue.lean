import RuleGrounding.SoftValue

/-!
# Bringing numbers between zero and one

A number that is brought between zero and one lies there, unless it is no number at all, and
then it compares with nothing. So a value that has been brought there and reaches a threshold
may be stored.
-/

namespace RuleGrounding

namespace SoftValue

open Float.Model

section Comparing

variable {a b : UnpackedFloat}

theorem compare_notANumber_left (b : UnpackedFloat) :
    UnpackedFloat.notANumber.compare b = none := by
  rcases b with ⟨_ | _⟩ | _ | _ | ⟨_ | _⟩ <;> rfl

theorem compare_notANumber_right (a : UnpackedFloat) : a.compare .notANumber = none := by
  rcases a with ⟨_ | _⟩ | _ | _ | ⟨_ | _⟩ <;> rfl

/-- Numbers can be compared. -/
theorem isSome_compare (ha : a ≠ .notANumber) (hb : b ≠ .notANumber) :
    (a.compare b).isSome = true := by
  rcases a with ⟨_ | _⟩ | _ | _ | ⟨_ | _⟩
  case notANumber => exact absurd rfl ha
  all_goals
    rcases b with ⟨_ | _⟩ | _ | _ | ⟨_ | _⟩
    case notANumber => exact absurd rfl hb
    all_goals rfl

/-- Only what is no number cannot be compared. -/
theorem compare_eq_none_iff : a.compare b = none ↔ a = .notANumber ∨ b = .notANumber := by
  constructor
  · intro h
    refine Classical.or_iff_not_imp_left.mpr fun ha => Classical.byContradiction fun hb => ?_
    have hsome := isSome_compare ha hb
    rw [h] at hsome
    cases hsome
  · rintro (rfl | rfl)
    · exact compare_notANumber_left b
    · exact compare_notANumber_right a

/-- Exponents and then mantissas are compared the other way round with the opposite result. -/
theorem swap_then_compare (e e' : Int) (m m' : Nat) :
    ((compare e e').then (compare m m')).swap = (compare e' e).then (compare m' m) := by
  rw [Ordering.swap_then, Int.compare_swap, Nat.compare_swap]

/-- Comparing the other way round gives the opposite. -/
theorem compare_swap (a b : UnpackedFloat) :
    b.compare a = (a.compare b).map Ordering.swap := by
  cases a with
  | notANumber => rcases b with ⟨_ | _⟩ | _ | _ | ⟨_ | _⟩ <;> rfl
  | infinity s => cases s <;> rcases b with ⟨_ | _⟩ | _ | _ | ⟨_ | _⟩ <;> rfl
  | zero s => rcases b with ⟨_ | _⟩ | _ | _ | ⟨_ | _⟩ <;> rfl
  | finite s m e hm =>
    cases b with
    | notANumber => cases s <;> rfl
    | infinity s' => cases s <;> cases s' <;> rfl
    | zero s' => cases s <;> rfl
    | finite s' m' e' hm' =>
      -- Only numbers of one sign are compared by exponent and mantissa.
      cases s <;> cases s'
      · exact congrArg (fun o => some o.swap) (swap_then_compare e e' m m').symm
      · rfl
      · rfl
      · exact congrArg some (swap_then_compare e e' m m').symm

variable {s t x y : Float}

theorem le_iff :
    x ≤ y ↔ ∃ o, x.toModel.unpack.compare y.toModel.unpack = some o ∧ o.isLE = true := by
  change decide (x.toModel ≤ y.toModel) = true ↔ _
  rw [decide_eq_true_eq]
  exact Option.any_eq_true ..

theorem lt_iff : x < y ↔ x.toModel.unpack.compare y.toModel.unpack = some .lt := by
  change decide (x.toModel < y.toModel) = true ↔ _
  rw [decide_eq_true_eq]
  exact beq_iff_eq

/-- Of two numbers, where each is at least some number, the one is at most the other if it is not
greater. -/
theorem le_of_not_lt (hx : s ≤ x) (hy : t ≤ y) (h : ¬ x < y) : y ≤ x := by
  obtain ⟨_, hs, -⟩ := le_iff.mp hx
  obtain ⟨_, ht, -⟩ := le_iff.mp hy
  rw [lt_iff] at h
  cases hc : x.toModel.unpack.compare y.toModel.unpack with
  | none =>
    rcases compare_eq_none_iff.mp hc with hnan | hnan
    · rw [compare_eq_none_iff.mpr (.inr hnan)] at hs
      cases hs
    · rw [compare_eq_none_iff.mpr (.inr hnan)] at ht
      cases ht
  | some o =>
    refine le_iff.mpr ⟨o.swap, by rw [compare_swap, hc]; rfl, ?_⟩
    cases o with
    | lt => exact absurd hc h
    | eq => rfl
    | gt => rfl

end Comparing

/-- A number that has been brought between zero and one, and is at least some number, lies there. -/
theorem inUnit_clamp_of_le {t x : Float} (h : t ≤ clamp x) : inUnit (clamp x) = true := by
  have hzero : (0.0 : Float) ≤ 0.0 := by decide
  have hone : (1.0 : Float) ≤ 1.0 := by decide
  rw [clamp] at h ⊢
  split
  · decide
  · rename_i hnonneg
    rw [if_neg hnonneg] at h
    split
    · decide
    · rename_i hle
      rw [if_neg hle] at h
      rw [inUnit, Bool.and_eq_true, decide_eq_true_eq, decide_eq_true_eq]
      exact ⟨le_of_not_lt h hzero hnonneg, le_of_not_lt hone h hle⟩

section Undefined

variable {x y : Float}

theorem isNaN_iff : x.isNaN = true ↔ x.toModel.unpack = .notANumber := by
  change x.toModel.unpack.isNaN = true ↔ _
  cases x.toModel.unpack with
  | notANumber => exact iff_of_true rfl rfl
  | _ => exact iff_of_false (fun h => nomatch h) fun h => nomatch h

/-- What is no number is not less than anything, and nothing is less than it. -/
theorem not_lt_of_isNaN (h : x.isNaN = true ∨ y.isNaN = true) : ¬ x < y := by
  rw [lt_iff, compare_eq_none_iff.mpr (h.imp isNaN_iff.mp isNaN_iff.mp)]
  exact fun hlt => nomatch hlt

/-- What is at least something is a number. -/
theorem isNaN_eq_false_of_le (h : x ≤ y) : y.isNaN = false := by
  obtain ⟨o, ho, -⟩ := le_iff.mp h
  refine Bool.eq_false_iff.mpr fun hnan => ?_
  rw [compare_eq_none_iff.mpr (.inr (isNaN_iff.mp hnan))] at ho
  cases ho

/-- A number is at least itself. -/
theorem le_refl (h : x.isNaN = false) : x ≤ x := by
  cases hc : x.toModel.unpack.compare x.toModel.unpack with
  | none =>
    have hnan := or_self_iff.mp (compare_eq_none_iff.mp hc)
    rw [isNaN_iff.mpr hnan] at h
    cases h
  | some o =>
    have hswap := compare_swap x.toModel.unpack x.toModel.unpack
    rw [hc] at hswap
    refine le_iff.mpr ⟨o, hc, ?_⟩
    cases o with
    | lt => cases hswap
    | eq => rfl
    | gt => cases hswap

/-- A number is brought between zero and one. -/
theorem inUnit_clamp (h : x.isNaN = false) : inUnit (clamp x) = true := by
  refine inUnit_clamp_of_le (t := clamp x) (le_refl ?_)
  rw [clamp]
  split
  · decide
  · split
    · decide
    · exact h

/-- What is no number stays as it is. -/
theorem clamp_of_isNaN (h : x.isNaN = true) : clamp x = x := by
  rw [clamp, if_neg (not_lt_of_isNaN (.inl h)), if_neg (not_lt_of_isNaN (.inr h))]

/-- What is no number does not lie between zero and one. -/
theorem inUnit_of_isNaN (h : x.isNaN = true) : inUnit x = false := by
  refine Bool.eq_false_iff.mpr fun hunit => ?_
  rw [inUnit, Bool.and_eq_true, decide_eq_true_eq] at hunit
  rw [isNaN_eq_false_of_le hunit.1] at h
  cases h

end Undefined

end SoftValue

end RuleGrounding
