import RuleGrounding.Json.Printer
import RuleGrounding.Json.Reader
import RuleGrounding.Proofs.Decimal.Layout

/-!
# Numbers read back

The reader takes the digits of a number as far as they go. What stands behind a number in a text
ends it, so that the parts are read as they were written.
-/

namespace RuleGrounding

namespace Json

open NumberParts

variable {rest : List Char} {p : NumberParts} {negative : Bool}

/-- What stands behind a number goes on with neither its digits, nor a fraction, nor an
exponent. -/
def EndsNumber (rest : List Char) : Prop :=
  ∀ c ∈ rest.head?, c.isDigit = false ∧ c ≠ '.' ∧ c ≠ 'e' ∧ c ≠ 'E'

section Digits

variable {ds : List Char}

theorem takeWhile_isDigit (hds : ∀ c ∈ ds, c.isDigit = true)
    (hrest : ∀ c ∈ rest.head?, c.isDigit = false) :
    (ds ++ rest).takeWhile Char.isDigit = ds := by
  rw [List.takeWhile_append_of_pos hds]
  cases rest with
  | nil => rw [List.takeWhile_nil, List.append_nil]
  | cons c rest =>
    rw [List.takeWhile_cons_of_neg (by rw [hrest c rfl]; decide), List.append_nil]

theorem dropWhile_isDigit (hds : ∀ c ∈ ds, c.isDigit = true)
    (hrest : ∀ c ∈ rest.head?, c.isDigit = false) :
    (ds ++ rest).dropWhile Char.isDigit = rest := by
  rw [List.dropWhile_append_of_pos hds]
  cases rest with
  | nil => rfl
  | cons c rest => rw [List.dropWhile_cons_of_neg (by rw [hrest c rfl]; decide)]

theorem digitsValue_eq (ds : List Char) : digitsValue ds = Nat.ofDigitChars 10 ds 0 := by
  rw [digitsValue, Nat.ofDigitChars_eq_foldl]
  rfl

end Digits

section Parts

theorem readFraction_append (hp : ∀ c ∈ p.fraction, c.isDigit = true)
    (hrest : ∀ c ∈ rest.head?, c.isDigit = false ∧ c ≠ '.') :
    readFraction (p.fractionChars ++ rest) = some (p.fraction, rest) := by
  have hdigit : ∀ c ∈ rest.head?, c.isDigit = false := fun c hc => (hrest c hc).1
  rw [fractionChars]
  split
  · rename_i hempty
    rw [List.isEmpty_iff.mp hempty, List.nil_append]
    unfold readFraction
    split
    · exact absurd rfl (hrest '.' rfl).2
    · rfl
  · rename_i hempty
    rw [List.cons_append, readFraction]
    simp only [takeWhile_isDigit hp hdigit, dropWhile_isDigit hp hdigit, if_neg hempty]

theorem readSigned_append (n : Nat) (hrest : ∀ c ∈ rest.head?, c.isDigit = false) :
    readSigned negative (Nat.toDigits 10 n ++ rest) =
      some (some (if negative then -(n : Int) else n), rest) := by
  have hdigits : ∀ c ∈ Nat.toDigits 10 n, c.isDigit = true := fun _ => isDigit_of_mem_toDigits
  have hempty : (Nat.toDigits 10 n).isEmpty = false := by
    rw [List.isEmpty_eq_false_iff]
    exact Nat.toDigits_ne_nil
  simp [readSigned, takeWhile_isDigit hdigits hrest, dropWhile_isDigit hdigits hrest, hempty,
    digitsValue_eq]

theorem readExponent_append (hrest : EndsNumber rest) :
    readExponent (p.exponentChars layout.plusSign ++ rest) = some (p.exponent?, rest) := by
  have hdigit : ∀ c ∈ rest.head?, c.isDigit = false := fun c hc => (hrest c hc).1
  rw [exponentChars]
  split
  · rename_i hnone
    rw [hnone, List.nil_append]
    cases rest with
    | nil => rfl
    | cons c rest =>
      obtain ⟨-, -, he, hE⟩ := hrest c rfl
      simp [readExponent, he, hE]
  · rename_i e hsome
    rw [hsome]
    by_cases hneg : e < 0
    · have hvalue : -(e.natAbs : Int) = e := by omega
      rw [if_pos hneg]
      change readSigned true (Nat.toDigits 10 e.natAbs ++ rest) = _
      rw [readSigned_append _ hdigit, if_pos rfl, hvalue]
    · have hvalue : (e.natAbs : Int) = e := by omega
      rw [if_neg hneg]
      change readSigned false (Nat.toDigits 10 e.natAbs ++ rest) = _
      rw [readSigned_append _ hdigit, if_neg Bool.false_ne_true, hvalue]

theorem head_fractionChars (hrest : ∀ c ∈ rest.head?, c.isDigit = false) :
    ∀ c ∈ (p.fractionChars ++ rest).head?, c.isDigit = false := by
  rw [fractionChars]
  split
  · exact hrest
  · intro c hc
    rw [← Option.some.inj hc]
    decide

theorem head_exponentChars (hrest : EndsNumber rest) :
    ∀ c ∈ (p.exponentChars layout.plusSign ++ rest).head?, c.isDigit = false ∧ c ≠ '.' := by
  rw [exponentChars]
  split
  · exact fun c hc => ⟨(hrest c hc).1, (hrest c hc).2.1⟩
  · intro c hc
    rw [← Option.some.inj hc]
    decide

/-- The parts of a number behind its sign are read as they were written. -/
theorem readMagnitude_append (hp : p.WellFormed) (hrest : EndsNumber rest) :
    readMagnitude negative (p.chars layout.plusSign ++ rest) =
      let n := Nat.ofDigitChars 10 (p.whole ++ p.fraction) 0
      some (if p.fraction.isEmpty && p.exponent?.isNone && !(negative && n = 0) then
          .integer (if negative then -(n : Int) else n)
        else .real (p.decimal negative).normalize, rest) := by
  have hexponent := head_exponentChars (p := p) hrest
  have hfraction := head_fractionChars (p := p) fun c hc => (hexponent c hc).1
  have hwhole : (p.whole.isEmpty || (p.whole.head? = some '0' && p.whole.length ≠ 1)) = false := by
    have hnonempty := List.isEmpty_eq_false_iff.mpr hp.nonempty
    by_cases hhead : p.whole.head? = some '0'
    · simp [hnonempty, hp.leading hhead]
    · simp [hnonempty, hhead]
  rw [chars, List.append_assoc, List.append_assoc, readMagnitude]
  simp only [takeWhile_isDigit hp.whole hfraction, dropWhile_isDigit hp.whole hfraction, hwhole,
    Bool.false_eq_true, if_false, readFraction_append hp.fraction hexponent,
    readExponent_append hrest, digitsValue_eq]
  split <;> rfl

end Parts

section Values

/-- The digits of a number behind its sign. -/
theorem head_chars (hp : p.WellFormed) (plusSign : String) (rest : List Char) :
    ∃ c s, p.chars plusSign ++ rest = c :: s ∧ c.isDigit = true := by
  obtain ⟨c, s, hwhole⟩ := List.exists_cons_of_ne_nil hp.nonempty
  refine ⟨c, s ++ (p.fractionChars ++ p.exponentChars plusSign) ++ rest, ?_, hp.whole c ?_⟩
  · rw [chars, hwhole]
    rfl
  · rw [hwhole]
    exact List.mem_cons_self

theorem readNumber_sign (hp : p.WellFormed) (plusSign : String) (rest : List Char) :
    readNumber ((if negative then ['-'] else []) ++ p.chars plusSign ++ rest) =
      readMagnitude negative (p.chars plusSign ++ rest) := by
  cases negative with
  | true => rfl
  | false =>
    obtain ⟨c, s, hchars, hc⟩ := head_chars hp plusSign rest
    rw [if_neg Bool.false_ne_true, List.nil_append, hchars]
    unfold readNumber
    split
    · rename_i heq
      rw [(List.cons.inj heq).1] at hc
      exact absurd hc (by decide)
    · rfl

/-- A decimal in normal form is read as it was written. -/
theorem readNumber_decimalText {d : Decimal} (h : d.IsNormal) (hrest : EndsNumber rest) :
    readNumber ((layout.decimalText d).toList ++ rest) = some (.real d, rest) := by
  obtain ⟨p, hp⟩ := NumberLayout.exists_writes layout h rfl
  have hreal : (p.fraction.isEmpty && p.exponent?.isNone) = false := by
    rcases hp.fraction rfl with hsome | hlength
    · rw [Option.isNone_eq_false_iff.mpr hsome, Bool.and_false]
    · have hfraction : p.fraction ≠ [] := List.ne_nil_of_length_pos (by omega)
      rw [List.isEmpty_eq_false_iff.mpr hfraction, Bool.false_and]
  rw [hp.text, readNumber_sign hp.wellFormed, readMagnitude_append hp.wellFormed hrest]
  simp only [hreal, Bool.false_and, Bool.false_eq_true, if_false, hp.value]

/-- An integer is read as it was written. -/
theorem readNumber_repr (n : Int) (hrest : EndsNumber rest) :
    readNumber (n.repr.toList ++ rest) = some (.integer n, rest) := by
  have hp : WellFormed ⟨Nat.toDigits 10 n.natAbs, [], none⟩ := by
    refine ⟨Nat.toDigits_ne_nil, fun h => ?_, fun _ => isDigit_of_mem_toDigits, by simp⟩
    by_cases hn : n.natAbs = 0
    · rw [hn]
      rfl
    · exact absurd h (head?_toDigits hn)
  have htext : n.repr.toList = (if decide (n < 0) then ['-'] else []) ++
      chars layout.plusSign ⟨Nat.toDigits 10 n.natAbs, [], none⟩ := by
    cases n with
    | ofNat n => simp [Int.repr, chars, fractionChars, exponentChars]
    | negSucc n => simp [Int.repr, chars, fractionChars, exponentChars]
  rw [htext, readNumber_sign hp, readMagnitude_append hp hrest]
  by_cases hn : n < 0
  · have hne : n ≠ 0 := hn.ne
    simp [hn, hne, abs_of_neg hn]
  · have hvalue : (n.natAbs : Int) = n := by omega
    simp [hn, hvalue]

end Values

end Json

end RuleGrounding
