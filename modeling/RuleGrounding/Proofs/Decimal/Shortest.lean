import RuleGrounding.Decimal.Shortest
import RuleGrounding.Proofs.Decimal.Rounding

/-!
# The decimal of a number reads back

Trailing zeros of a decimal make no difference to its normal form. The decimal that is chosen for a
finite binary number is in normal form and reads back as that number: a decimal from one of the
grids is tried before it is taken, and the exact decimal that stands behind the grids is rounded to
the number itself.
-/

namespace RuleGrounding

namespace Decimal

variable {n fuel j : Nat} {c : Int} {d : Decimal}

/-- No power of ten can be taken out of the digits. -/
def IsNormal (d : Decimal) : Prop := (d.digits = 0 ∧ d.exponent = 0) ∨ d.digits % 10 ≠ 0

section Zeros

theorem log2_div_ten_lt (hn : n ≠ 0) (hten : n % 10 = 0) : (n / 10).log2 < n.log2 := by
  have hdiv : n / 10 ≠ 0 := by omega
  have hle : 2 ^ (2 * (n / 10)).log2 ≤ n := (Nat.log2_self_le (by omega)).trans (by omega)
  have := (Nat.le_log2 hn).mpr hle
  rw [Nat.log2_two_mul hdiv] at this
  omega

theorem stripZeros_of_mod_ne (h : n % 10 ≠ 0) (fuel : Nat) (c : Int) :
    stripZeros fuel n c = (n, c) := by
  cases fuel with
  | zero => rfl
  | succ fuel => rw [stripZeros, if_neg fun hten => h hten.2]

/-- All zeros behind the last other digit are moved into the exponent. -/
theorem stripZeros_mul_pow (h : n % 10 ≠ 0) (hfuel : (n * 10 ^ j).log2 ≤ fuel) :
    stripZeros fuel (n * 10 ^ j) c = (n, c + j) := by
  induction j generalizing fuel c with
  | zero =>
    rw [Nat.pow_zero, Nat.mul_one, stripZeros_of_mod_ne h, Int.natCast_zero, Int.add_zero]
  | succ j ih =>
    have hpos : 0 < n * 10 ^ (j + 1) :=
      Nat.mul_pos (Nat.pos_of_ne_zero fun hn => h (by rw [hn])) (Nat.pow_pos (by decide))
    have hsplit : n * 10 ^ (j + 1) = n * 10 ^ j * 10 := by ring
    have hten : n * 10 ^ (j + 1) % 10 = 0 := by rw [hsplit, Nat.mul_mod_left]
    have hdiv : n * 10 ^ (j + 1) / 10 = n * 10 ^ j := by
      rw [hsplit, Nat.mul_div_cancel _ (by decide)]
    have hlt := log2_div_ten_lt hpos.ne' hten
    rw [hdiv] at hlt
    obtain ⟨fuel, rfl⟩ : ∃ f, fuel = f + 1 := ⟨fuel - 1, by omega⟩
    rw [stripZeros, if_pos ⟨hpos.ne', hten⟩, hdiv, ih (by omega), Int.natCast_succ]
    congr 1
    omega

/-- A number is its digits up to the last that is not zero, and zeros. -/
theorem exists_mul_pow (h : n ≠ 0) : ∃ n' j, n = n' * 10 ^ j ∧ n' % 10 ≠ 0 := by
  induction n using Nat.strongRecOn with
  | ind n ih =>
    by_cases hten : n % 10 = 0
    · obtain ⟨n', j, heq, hn'⟩ := ih (n / 10) (by omega) (by omega)
      refine ⟨n', j + 1, ?_, hn'⟩
      have hsplit : n' * 10 ^ (j + 1) = n' * 10 ^ j * 10 := by ring
      rw [hsplit, ← heq]
      omega
    · exact ⟨n, 0, by ring, hten⟩

end Zeros

section Normalizing

/-- A decimal that is written with trailing zeros is brought back to the one without them. -/
theorem normalize_scaled (h : d.digits % 10 ≠ 0) (j : Nat) :
    normalize ⟨d.negative, d.digits * 10 ^ j, d.exponent - j⟩ = d := by
  have hpos : d.digits * 10 ^ j ≠ 0 :=
    Nat.mul_ne_zero (fun hd => h (by rw [hd])) (Nat.pow_pos (by decide)).ne'
  rw [normalize, if_neg hpos]
  simp only [stripZeros_mul_pow h (Nat.le_refl _), Int.sub_add_cancel]

/-- How a decimal and its normal form are related. -/
theorem exists_normalize (h : d.digits ≠ 0) :
    ∃ j : Nat, d.digits = d.normalize.digits * 10 ^ j ∧
      d.normalize.exponent = d.exponent + j ∧ d.normalize.digits % 10 ≠ 0 := by
  obtain ⟨n, j, hdigits, hn⟩ := exists_mul_pow h
  have hnormal : d.normalize = ⟨d.negative, n, d.exponent + j⟩ := by
    rw [normalize, if_neg h]
    simp only [hdigits, stripZeros_mul_pow hn (Nat.le_refl _)]
  rw [hnormal]
  exact ⟨j, hdigits, rfl, hn⟩

theorem isNormal_normalize (d : Decimal) : d.normalize.IsNormal := by
  by_cases h : d.digits = 0
  · left
    rw [normalize, if_pos h]
    exact ⟨h, rfl⟩
  · obtain ⟨-, -, -, hmod⟩ := exists_normalize h
    exact .inr hmod

theorem negative_normalize (d : Decimal) : d.normalize.negative = d.negative := by
  rw [normalize]
  split <;> rfl

end Normalizing

section Exact

open Binary Float.Model Float.Model.UnpackedFloat

variable {M D : Nat} {E : Int}

/-- The exact decimal of a binary number, without its trailing zeros, has the same value. -/
theorem value_normalize_toDecimal (hM : 0 < M) {E : Int} :
    let d := (Dyadic.toDecimal ⟨M, E⟩).normalize
    0 < d.digits ∧
      d.digits * 10 ^ d.exponent.toNat * 2 ^ (-E).toNat =
        M * 2 ^ E.toNat * 10 ^ (-d.exponent).toNat := by
  intro d
  have hdigits : (Dyadic.toDecimal ⟨M, E⟩).digits = M * 2 ^ E.toNat * 5 ^ (-E).toNat := rfl
  have hexponent : (Dyadic.toDecimal ⟨M, E⟩).exponent = -((-E).toNat : Int) := rfl
  have hne : (Dyadic.toDecimal ⟨M, E⟩).digits ≠ 0 := by
    rw [hdigits]
    positivity
  obtain ⟨j, hj, hc, hmod⟩ := exists_normalize hne
  change M * 2 ^ E.toNat * 5 ^ (-E).toNat = d.digits * 10 ^ j at hj
  change d.exponent = _ at hc
  change d.digits % 10 ≠ 0 at hmod
  rw [hexponent] at hc
  generalize (-E).toNat = k at hj hc ⊢
  have hten : ∀ i : Nat, 10 ^ i = 2 ^ i * 5 ^ i := fun i => Nat.mul_pow 2 5 i
  refine ⟨Nat.pos_of_ne_zero fun h => hmod (by rw [h]), ?_⟩
  rcases Int.le_total 0 d.exponent with hnonneg | hnonpos
  · have hzero : (-d.exponent).toNat = 0 := by omega
    have hsplit : j = d.exponent.toNat + k := by omega
    rw [hsplit, Nat.pow_add, hten k] at hj
    rw [hzero, Nat.pow_zero, Nat.mul_one]
    refine Nat.eq_of_mul_eq_mul_right (Nat.pow_pos (n := k) (a := 5) (by decide)) ?_
    rw [hj]
    ring
  · have hzero : d.exponent.toNat = 0 := by omega
    have hsplit : k = (-d.exponent).toNat + j := by omega
    rw [hzero, Nat.pow_zero, Nat.mul_one]
    refine Nat.eq_of_mul_eq_mul_right (Nat.pow_pos (n := j) (a := 10) (by decide)) ?_
    calc d.digits * 2 ^ k * 10 ^ j = d.digits * 10 ^ j * 2 ^ k := by ring
      _ = M * 2 ^ E.toNat * 10 ^ k := by rw [← hj, hten k]; ring
      _ = M * 2 ^ E.toNat * 10 ^ (-d.exponent).toNat * 10 ^ j := by
        rw [hsplit, Nat.pow_add]; ring

theorem two_pow_le_ten_pow (i : Nat) : 2 ^ (3 * i) ≤ 10 ^ i := by
  rw [Nat.pow_mul]
  exact Nat.pow_le_pow_left (by decide) i

theorem mul_two_pow_lt {a i k l : Nat} (ha : a < 2 ^ i) (hk : k ≤ l) :
    a * 2 ^ k < 2 ^ (i + l) := by
  rw [Nat.pow_add]
  exact Nat.mul_lt_mul_of_lt_of_le ha (Nat.pow_le_pow_right (by decide) hk) (Nat.two_pow_pos _)

/-- A decimal of the value of a binary number is not scaled out of range. -/
theorem inRange_of_value (h : Canonical M E) (hD : 0 < D)
    (hvalue : D * 10 ^ c.toNat * 2 ^ (-E).toNat = M * 2 ^ E.toNat * 10 ^ (-c).toNat) :
    c ≤ 400 ∧ -(400 + (D.log2 : Int)) ≤ c := by
  have hle := h.le
  have hge := h.ge
  constructor
  · by_contra hlarge
    have hzero : (-c).toNat = 0 := by omega
    rw [hzero, Nat.pow_zero, Nat.mul_one] at hvalue
    have hlt : 2 ^ (3 * c.toNat) < 2 ^ (53 + 971) := by
      calc 2 ^ (3 * c.toNat) ≤ 10 ^ c.toNat := two_pow_le_ten_pow _
        _ ≤ D * 10 ^ c.toNat * 2 ^ (-E).toNat := by
          rw [Nat.mul_right_comm]
          exact Nat.le_mul_of_pos_left _ (by positivity)
        _ = M * 2 ^ E.toNat := hvalue
        _ < 2 ^ (53 + 971) := mul_two_pow_lt h.lt (by omega)
    have := (Nat.pow_lt_pow_iff_right (by decide)).mp hlt
    omega
  · by_contra hsmall
    have hzero : c.toNat = 0 := by omega
    rw [hzero, Nat.pow_zero, Nat.mul_one] at hvalue
    have hlt : 2 ^ (3 * (-c).toNat) < 2 ^ (D.log2 + 1 + 1074) := by
      calc 2 ^ (3 * (-c).toNat) ≤ 10 ^ (-c).toNat := two_pow_le_ten_pow _
        _ ≤ M * 2 ^ E.toNat * 10 ^ (-c).toNat :=
          Nat.le_mul_of_pos_left _ (Nat.mul_pos h.pos (Nat.two_pow_pos _))
        _ = D * 2 ^ (-E).toNat := hvalue.symm
        _ < 2 ^ (D.log2 + 1 + 1074) := mul_two_pow_lt Nat.lt_log2_self (by omega)
    have := (Nat.pow_lt_pow_iff_right (by decide)).mp hlt
    omega

/-- A decimal of the value of a binary number is read as that number. -/
theorem magnitude_exact (h : Canonical M E) (hD : 0 < D)
    (hvalue : D * 10 ^ c.toNat * 2 ^ (-E).toNat = M * 2 ^ E.toNat * 10 ^ (-c).toNat) :
    magnitude D c = .ofModel (.pack (.finite .positive M E h.pos)) := by
  obtain ⟨hhigh, hlow⟩ := inRange_of_value h hD hvalue
  rw [magnitude, if_neg hD.ne', if_neg (by omega), if_neg (by omega), Float.Model.ofScientific,
    ofScientific_exact h hD (by omega) (by omega) hvalue]

end Exact

section Shortest

open Binary Float.Model Float.Model.UnpackedFloat

variable {s : Sign} {e : BitVec 11} {m : BitVec 52} {x : Float} {tie : Tie}

/-- A finite number that is not zero has a mantissa and an exponent, which are read off its bits. -/
theorem exists_canonical (he : e ≠ -1#11) (hne : ¬ (e.toNat = 0 ∧ m.toNat = 0)) :
    ∃ M E, ∃ h : Canonical M E, (∀ s, value s e m = .finite s M E h.pos) ∧
      Dyadic.ofBits (number .positive e m).toBits = ⟨M, E⟩ := by
  have hlt := toNat_lt_of_ne he
  have hm := m.isLt
  rw [ofBits_number he]
  by_cases hzero : e.toNat = 0
  · have hfraction : m.toNat ≠ 0 := fun h => hne ⟨hzero, h⟩
    refine ⟨m.toNat, -1074, ⟨by omega, by omega, by omega, by omega, .inl rfl⟩, fun s => ?_, ?_⟩
    · rw [value, if_pos hzero, dif_neg hfraction]
    · rw [if_pos hzero]
  · refine ⟨2 ^ 52 + m.toNat, e.toNat - 1075,
      ⟨by omega, by omega, by omega, by omega, .inr (by omega)⟩, fun s => ?_, ?_⟩
    · rw [value, if_neg hzero]
    · rw [if_neg hzero, Nat.add_comm]

theorem eq_of_readsBack (h : readsBack x d = true) : d.toFloat = x :=
  Float.toBits_inj.mp (beq_iff_eq.mp h)

/-- The decimals on the grids are positive and in normal form. -/
theorem normal_of_ofDigitCount {b : Dyadic} {lead : Int} {n : Nat}
    (h : ofDigitCount tie x b lead n = some d) : d.negative = false ∧ d.IsNormal := by
  obtain ⟨digits, -, rfl⟩ := List.mem_map.mp (List.mem_of_find?_eq_some h)
  exact ⟨negative_normalize _, isNormal_normalize _⟩

/-- The decimal of a positive number reads back, whether it comes from a grid or is the exact
one. -/
theorem shortestPositive_reads_back (he : e ≠ -1#11) (hne : ¬ (e.toNat = 0 ∧ m.toNat = 0)) :
    let d := shortestPositive tie (number .positive e m)
    magnitude d.digits d.exponent = number .positive e m ∧ d.IsNormal := by
  obtain ⟨M, E, h, hvalue, hbits⟩ := exists_canonical he hne
  intro d
  simp only [d, shortestPositive, hbits]
  cases hgrid : (List.range 17).findSome? fun n =>
      ofDigitCount tie (number .positive e m) ⟨M, E⟩ (Dyadic.leadingExponent ⟨M, E⟩) (n + 1) with
  | some d' =>
    obtain ⟨n, -, hn⟩ := List.exists_of_findSome?_eq_some hgrid
    obtain ⟨hpositive, hnormal⟩ := normal_of_ofDigitCount hn
    have hreads := eq_of_readsBack (readsBack_of_ofDigitCount hn)
    rw [toFloat, hpositive] at hreads
    exact ⟨hreads, hnormal⟩
  | none =>
    obtain ⟨hpos, heq⟩ := value_normalize_toDecimal h.pos (E := E)
    refine ⟨?_, isNormal_normalize _⟩
    rw [number, hvalue]
    exact magnitude_exact h hpos heq

theorem number_beq_zero_iff (he : e ≠ -1#11) :
    (number s e m == 0.0) = true ↔ e.toNat = 0 ∧ m.toNat = 0 := by
  have hzero : (0.0 : Float).toModel.unpack = .zero .positive := rfl
  change UnpackedFloat.beq (number s e m).toModel.unpack (0.0 : Float).toModel.unpack = true ↔ _
  rw [unpack_number he, hzero]
  by_cases h : e.toNat = 0 ∧ m.toNat = 0
  · refine iff_of_true ?_ h
    rw [value, if_pos h.1, dif_pos h.2]
    rfl
  · obtain ⟨M, E, hcanonical, hvalue, -⟩ := exists_canonical he h
    refine iff_of_false ?_ h
    rw [hvalue]
    cases s <;> exact Bool.false_ne_true

/-- The highest bit of a number is its sign. -/
theorem two_pow_le_toBits (he : e ≠ -1#11) :
    decide (Nat.pow 2 63 ≤ (number s e m).toBits.toNat) = (s == .negative) := by
  have he' := e.isLt
  have hm := m.isLt
  rw [toNat_toBits_number he]
  cases s with
  | negative =>
    refine decide_eq_true ?_
    change 2 ^ 63 ≤ 1 * 2 ^ 63 + _ + _
    omega
  | positive =>
    refine decide_eq_false ?_
    change ¬ 2 ^ 63 ≤ 0 * 2 ^ 63 + _ + _
    omega

/-- The decimal that is chosen for a finite number reads back as that number, and is in normal
form. -/
theorem shortest_reads_back (h : x.isFinite = true) (tie : Tie) :
    (shortest tie x).toFloat = x ∧ (shortest tie x).IsNormal := by
  obtain ⟨s, e, m, he, rfl⟩ := exists_number h
  rw [shortest, two_pow_le_toBits he]
  by_cases hzero : e.toNat = 0 ∧ m.toNat = 0
  · rw [if_pos ((number_beq_zero_iff he).mpr hzero)]
    obtain rfl : e = 0#11 := BitVec.eq_of_toNat_eq hzero.1
    obtain rfl : m = 0#52 := BitVec.eq_of_toNat_eq hzero.2
    refine ⟨?_, .inl ⟨rfl, rfl⟩⟩
    cases s <;> exact Float.toBits_inj.mp (by decide)
  · rw [if_neg (mt (number_beq_zero_iff he).mp hzero), abs_number he]
    obtain ⟨hreads, hnormal⟩ := shortestPositive_reads_back he hzero
    refine ⟨?_, hnormal⟩
    rw [toFloat]
    simp only [hreads]
    cases s with
    | negative => exact neg_number he
    | positive => rfl

end Shortest

end Decimal

end RuleGrounding
