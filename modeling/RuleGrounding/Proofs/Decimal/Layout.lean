import RuleGrounding.Decimal.Layout
import RuleGrounding.Proofs.Decimal.Scaling

/-!
# Laid out decimals keep their value

Whether a decimal is written with or without an exponent, its text is made of digits in front of the
point, digits behind it and an exponent. These parts have the value of the decimal: read as a
decimal again they differ from it by trailing zeros at most.
-/

namespace RuleGrounding

/-- The parts of the text of a number without its sign. -/
structure NumberParts where
  /-- The digits in front of the point. -/
  whole : List Char
  /-- The digits behind the point. -/
  fraction : List Char
  /-- The exponent, if one is written. -/
  exponent? : Option Int

namespace NumberParts

/-- The fraction behind the digits in front of the point. -/
def fractionChars (p : NumberParts) : List Char :=
  if p.fraction.isEmpty then [] else '.' :: p.fraction

/-- The exponent behind the digits. -/
def exponentChars (plusSign : String) (p : NumberParts) : List Char :=
  match p.exponent? with
  | none => []
  | some e => 'e' :: ((if e < 0 then ['-'] else plusSign.toList) ++ Nat.toDigits 10 e.natAbs)

/-- The text of the parts. -/
def chars (plusSign : String) (p : NumberParts) : List Char :=
  p.whole ++ (p.fractionChars ++ p.exponentChars plusSign)

/-- The decimal that the parts stand for. -/
def decimal (negative : Bool) (p : NumberParts) : Decimal :=
  ⟨negative, Nat.ofDigitChars 10 (p.whole ++ p.fraction) 0,
    p.exponent?.getD 0 - p.fraction.length⟩

/-- The parts are digits, at least one in front of the point, where no zero leads. -/
structure WellFormed (p : NumberParts) : Prop where
  /-- There is a digit in front of the point. -/
  nonempty : p.whole ≠ []
  /-- A zero in front of the point stands alone. -/
  leading : p.whole.head? = some '0' → p.whole.length = 1
  /-- There are only digits in front of the point. -/
  whole : ∀ c ∈ p.whole, c.isDigit = true
  /-- There are only digits behind the point. -/
  fraction : ∀ c ∈ p.fraction, c.isDigit = true

end NumberParts

section Digits

variable {n : Nat}

theorem isDigit_of_mem_toDigits {c : Char} (h : c ∈ Nat.toDigits 10 n) : c.isDigit = true :=
  Nat.isDigit_of_mem_toDigits (by decide) (by decide) h

/-- A number that is not zero does not begin with a zero. -/
theorem head?_toDigits (h : n ≠ 0) : (Nat.toDigits 10 n).head? ≠ some '0' := by
  induction n using Nat.strongRecOn with
  | ind n ih =>
    by_cases hlt : n < 10
    · have hdigit : ∀ n : Nat, n < 10 → n ≠ 0 → [n.digitChar].head? ≠ some '0' := by decide
      rw [Nat.toDigits_of_lt_base hlt]
      exact hdigit n hlt h
    · have hsplit := Nat.toDigits_of_base_le (b := 10) (n := n) (by decide) (by omega)
      rw [hsplit, List.head?_append_of_ne_nil _ Nat.toDigits_ne_nil]
      exact ih (n / 10) (by omega) (by omega)

theorem toList_pushn (c : Char) (k : Nat) : ("".pushn c k).toList = List.replicate k c := by
  rw [String.pushn_eq_repeat_push]
  induction k with
  | zero => rfl
  | succ k ih => rw [Nat.repeat, String.toList_push, ih, List.replicate_succ']

theorem isDigit_of_mem_replicate {k : Nat} {c : Char} (h : c ∈ List.replicate k '0') :
    c.isDigit = true := by
  rw [List.eq_of_mem_replicate h]
  rfl

end Digits

namespace NumberLayout

open NumberParts

variable {n : Nat} {lead : Int} {negative wholeFraction : Bool} {plusSign : String}

/-- The parts of a text stand for the digits of a number, and zeros, with the leading digit at
`10 ^ lead`. -/
structure Lays (n : Nat) (lead : Int) (p : NumberParts) : Prop where
  /-- The text is that of a number. -/
  wellFormed : p.WellFormed
  /-- The digits are those of the number and zeros, and the exponent makes up for these. -/
  value : ∃ j : Nat, ∀ negative, p.decimal negative =
    ⟨negative, n * 10 ^ j, lead + 1 - (Nat.toDigits 10 n).length - j⟩

section Cases

/-- Zeros in front of the digits, behind the point. -/
theorem lays_small (hlead : lead < 0) :
    Lays n lead ⟨['0'], List.replicate (-lead - 1).toNat '0' ++ Nat.toDigits 10 n, none⟩ where
  wellFormed := by
    refine ⟨by simp, fun _ => rfl, by simp, fun c hc => ?_⟩
    rcases List.mem_append.mp hc with hc | hc
    · exact isDigit_of_mem_replicate hc
    · exact isDigit_of_mem_toDigits hc
  value := by
    refine ⟨0, fun negative => ?_⟩
    have hdigits : Nat.ofDigitChars 10
        (['0'] ++ (List.replicate (-lead - 1).toNat '0' ++ Nat.toDigits 10 n)) 0 = n := by
      rw [Nat.ofDigitChars_append, Nat.ofDigitChars_append]
      simp [Nat.ofDigitChars_cons]
    simp only [decimal, hdigits, List.length_append, List.length_replicate, Option.getD_none]
    congr 1
    · ring
    · push_cast
      omega

variable (hn : n ≠ 0)

include hn

/-- Zeros behind the digits, in front of the point. -/
theorem lays_large (wholeFraction : Bool) (hlead : ((Nat.toDigits 10 n).length : Int) ≤ lead + 1) :
    Lays n lead ⟨Nat.toDigits 10 n ++
      List.replicate (lead.toNat + 1 - (Nat.toDigits 10 n).length) '0',
      if wholeFraction then ['0'] else [], none⟩ where
  wellFormed := by
    refine ⟨by simp [Nat.toDigits_ne_nil], fun h => ?_, fun c hc => ?_, fun c hc => ?_⟩
    · rw [List.head?_append_of_ne_nil _ Nat.toDigits_ne_nil] at h
      exact absurd h (head?_toDigits hn)
    · rcases List.mem_append.mp hc with hc | hc
      · exact isDigit_of_mem_toDigits hc
      · exact isDigit_of_mem_replicate hc
    · cases wholeFraction
      · cases hc
      · rw [List.mem_singleton.mp hc]
        rfl
  value := by
    have hpos : 0 < (Nat.toDigits 10 n).length := Nat.length_toDigits_pos
    generalize hk : lead.toNat + 1 - (Nat.toDigits 10 n).length = k
    cases wholeFraction with
    | false =>
      refine ⟨k, fun negative => ?_⟩
      simp only [decimal, Bool.false_eq_true, if_false, List.append_nil, List.length_nil,
        Nat.ofDigitChars_append, Nat.ofDigitChars_ten_toDigits, Nat.ofDigitChars_replicate_zero,
        Option.getD_none]
      congr 1
      · ring
      · omega
    | true =>
      refine ⟨k + 1, fun negative => ?_⟩
      simp only [decimal, if_true, List.length_singleton,
        Nat.ofDigitChars_append, Nat.ofDigitChars_ten_toDigits, Nat.ofDigitChars_replicate_zero,
        Option.getD_none]
      congr 1
      · rw [Nat.ofDigitChars_cons, Nat.ofDigitChars_nil, Nat.sub_self]
        ring
      · omega

theorem wellFormed_split {k : Nat} (hk : 0 < k) (e? : Option Int) :
    WellFormed ⟨(Nat.toDigits 10 n).take k, (Nat.toDigits 10 n).drop k, e?⟩ := by
  have hhead : ((Nat.toDigits 10 n).take k).head? = (Nat.toDigits 10 n).head? := by
    rw [List.head?_take, if_neg hk.ne']
  refine ⟨fun h => ?_, fun h => ?_, fun c hc => ?_, fun c hc => ?_⟩
  · rcases List.take_eq_nil_iff.mp h with h | h
    · exact hk.ne' h
    · exact Nat.toDigits_ne_nil h
  · exact absurd (hhead.symm.trans h) (head?_toDigits hn)
  · exact isDigit_of_mem_toDigits (List.mem_of_mem_take hc)
  · exact isDigit_of_mem_toDigits (List.mem_of_mem_drop hc)

/-- The point between the digits. -/
theorem lays_between (hnonneg : 0 ≤ lead)
    (hlead : lead + 1 < ((Nat.toDigits 10 n).length : Int)) :
    Lays n lead ⟨(Nat.toDigits 10 n).take (lead.toNat + 1),
      (Nat.toDigits 10 n).drop (lead.toNat + 1), none⟩ where
  wellFormed := wellFormed_split hn (Nat.succ_pos _) none
  value := by
    refine ⟨0, fun negative => ?_⟩
    simp only [decimal, List.take_append_drop, Nat.ofDigitChars_ten_toDigits, List.length_drop,
      Option.getD_none]
    congr 1
    · ring
    · omega

/-- The point behind the first digit, and an exponent. -/
theorem lays_scientific :
    Lays n lead ⟨(Nat.toDigits 10 n).take 1, (Nat.toDigits 10 n).drop 1, some lead⟩ where
  wellFormed := wellFormed_split hn Nat.one_pos (some lead)
  value := by
    have hpos : 0 < (Nat.toDigits 10 n).length := Nat.length_toDigits_pos
    refine ⟨0, fun negative => ?_⟩
    simp only [decimal, List.take_append_drop, Nat.ofDigitChars_ten_toDigits, List.length_drop,
      Option.getD_some]
    congr 1
    · ring
    · omega

end Cases

section Texts

theorem length_repr (n : Nat) : n.repr.length = (Nat.toDigits 10 n).length := by
  rw [← String.length_toList, Nat.toList_repr]

/-- A number that is written without an exponent. A whole one gets a single digit behind the point
if it keeps a fraction. -/
theorem exists_lays_positional (hn : n ≠ 0) (wholeFraction : Bool) (lead : Int)
    (plusSign : String) :
    ∃ p, Lays n lead p ∧ p.exponent? = none ∧
      (positionalText wholeFraction n.repr lead).toList = p.chars plusSign ∧
      (wholeFraction = true →
        (p.fraction.length : Int) = max 1 ((Nat.toDigits 10 n).length - (lead + 1))) := by
  have hpos : 0 < (Nat.toDigits 10 n).length := Nat.length_toDigits_pos
  rw [positionalText]
  split
  · rename_i hlead
    refine ⟨_, lays_small hlead, rfl, ?_, fun _ => ?_⟩
    · simp [chars, fractionChars, exponentChars, toList_pushn, Nat.toDigits_ne_nil]
    · rw [List.length_append, List.length_replicate]
      omega
  · rename_i hnonneg
    split
    · rename_i hlead
      rw [length_repr] at hlead
      refine ⟨_, lays_large hn wholeFraction hlead, rfl, ?_, fun h => ?_⟩
      · cases wholeFraction <;>
          simp [chars, fractionChars, exponentChars, length_repr, toList_pushn]
      · rw [if_pos h, List.length_singleton]
        omega
    · rename_i hlead
      rw [length_repr, Int.not_le] at hlead
      have hdrop : (Nat.toDigits 10 n).drop (lead.toNat + 1) ≠ [] := by
        rw [ne_eq, List.drop_eq_nil_iff]
        omega
      refine ⟨_, lays_between hn (by omega) hlead, rfl, ?_, fun _ => ?_⟩
      · simp [chars, fractionChars, exponentChars, hdrop]
      · rw [List.length_drop]
        omega

/-- A number that is written with an exponent. -/
theorem exists_lays_scientific (hn : n ≠ 0) (lead : Int) (plusSign : String) :
    ∃ p, Lays n lead p ∧ p.exponent?.isSome = true ∧
      (scientificText plusSign n.repr lead).toList = p.chars plusSign := by
  refine ⟨_, lays_scientific hn, rfl, ?_⟩
  simp only [scientificText, chars, fractionChars, exponentChars, Nat.toList_repr,
    String.toList_append, String.toList_ofList]
  by_cases hdrop : (Nat.toDigits 10 n).tail = [] <;> by_cases hlead : lead < 0 <;>
    simp [hdrop, hlead]

/-- The text of a zero, which stands at the place of ones. -/
theorem exists_parts_zero (wholeFraction : Bool) (plusSign : String) :
    ∃ p : NumberParts, p.WellFormed ∧ p.exponent? = none ∧
      (positionalText wholeFraction (Nat.repr 0) 0).toList = p.chars plusSign ∧
      (∀ negative, (p.decimal negative).normalize = ⟨negative, 0, 0⟩) ∧
      (wholeFraction = true → p.fraction.length = 1) := by
  refine ⟨⟨['0'], if wholeFraction then ['0'] else [], none⟩,
    ⟨List.cons_ne_nil _ _, fun _ => rfl, by simp, ?_⟩, rfl, ?_, fun _ => ?_, fun h => by simp [h]⟩
  · cases wholeFraction <;> simp
  · cases wholeFraction <;> rfl
  · cases wholeFraction <;> rfl

/-- Parts that stand for the digits of a decimal in normal form, its leading digit in its place,
stand for that decimal. -/
theorem Lays.normalize_eq {d : Decimal} {p : NumberParts} (h : d.digits % 10 ≠ 0)
    (hp : Lays d.digits (d.exponent + (d.digits.repr.length : Int) - 1) p) :
    (p.decimal d.negative).normalize = d := by
  obtain ⟨j, hvalue⟩ := hp.value
  have hexponent : d.exponent + (d.digits.repr.length : Int) - 1 + 1 -
      ((Nat.toDigits 10 d.digits).length : Int) - j = d.exponent - j := by
    rw [length_repr]
    omega
  rw [hvalue, hexponent, Decimal.normalize_scaled h]

/-- The parts that a layout writes for a decimal. -/
structure Writes (layout : NumberLayout) (d : Decimal) (p : NumberParts) : Prop where
  /-- The text is that of a number. -/
  wellFormed : p.WellFormed
  /-- The text is made of the parts behind the sign. -/
  text : (layout.decimalText d).toList =
    (if d.negative then ['-'] else []) ++ p.chars layout.plusSign
  /-- The parts stand for the decimal. -/
  value : (p.decimal d.negative).normalize = d
  /-- Where whole numbers keep a fraction, one digit at least stands behind the point, or there is
  an exponent. -/
  fraction : layout.wholeFraction = true →
    p.exponent?.isSome = true ∨ (p.fraction.length : Int) = max 1 (-d.exponent)
  /-- An exponent is only written where the layout asks for one. -/
  exponent : p.exponent?.isSome = true → ∃ lead, layout.positional lead = false

/-- The text of a decimal in normal form has parts that stand for it. -/
theorem exists_writes (layout : NumberLayout) {d : Decimal} (h : d.IsNormal)
    (hzero : layout.positional 0 = true) : ∃ p, layout.Writes d p := by
  have hsign : (if d.negative then "-" else "").toList = if d.negative then ['-'] else [] := by
    cases d.negative <;> rfl
  have hnone : ∀ {p : NumberParts}, p.exponent? = none → p.exponent?.isSome = true →
      ∃ lead, layout.positional lead = false := by
    intro p hnone hsome
    rw [hnone] at hsome
    cases hsome
  rcases h with ⟨hdigits, hexponent⟩ | hmod
  · obtain ⟨p, hp, hplain, htext, hvalue, hfraction⟩ :=
      exists_parts_zero layout.wholeFraction layout.plusSign
    have hd : d = ⟨d.negative, 0, 0⟩ := by rw [← hdigits, ← hexponent]
    refine ⟨p, hp, ?_, (hvalue _).trans hd.symm, fun h => .inr ?_, hnone hplain⟩
    · simp only [decimalText, String.toList_append, hsign, Nat.toString_eq_repr, hdigits, if_true,
        hzero, htext]
    · rw [hfraction h, hexponent]
      rfl
  · have hn : d.digits ≠ 0 := fun h => hmod (by rw [h])
    by_cases hpositional : layout.positional (d.exponent + (d.digits.repr.length : Int) - 1)
    · obtain ⟨p, hp, hplain, htext, hfraction⟩ :=
        exists_lays_positional hn layout.wholeFraction
          (d.exponent + (d.digits.repr.length : Int) - 1) layout.plusSign
      refine ⟨p, hp.wellFormed, ?_, hp.normalize_eq hmod, fun h => .inr ?_, hnone hplain⟩
      · simp only [decimalText, String.toList_append, hsign, Nat.toString_eq_repr, if_neg hn,
          if_pos hpositional, htext]
      · rw [hfraction h, length_repr]
        congr 1
        omega
    · obtain ⟨p, hp, hsome, htext⟩ := exists_lays_scientific hn
        (d.exponent + (d.digits.repr.length : Int) - 1) layout.plusSign
      refine ⟨p, hp.wellFormed, ?_, hp.normalize_eq hmod, fun _ => .inl hsome,
        fun _ => ⟨_, Bool.eq_false_iff.mpr hpositional⟩⟩
      simp only [decimalText, String.toList_append, hsign, Nat.toString_eq_repr, if_neg hn,
        if_neg hpositional, htext]

end Texts

end NumberLayout

end RuleGrounding
