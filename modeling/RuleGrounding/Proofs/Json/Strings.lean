import Mathlib.Tactic.SplitIfs
import RuleGrounding.Json.Printer
import RuleGrounding.Json.Reader

/-!
# Strings read back

A quoted string is read one character after the other: a character stands for itself unless it is
escaped, and every escape that is written is one that the reader knows.
-/

namespace RuleGrounding

namespace Json

variable {c : Char} {s rest : List Char}

section Escapes

theorem hexValue?_hexDigit : ∀ n < 16, hexValue? (hexDigit n) = some n := by decide

/-- A control character is written as a number with four digits. -/
theorem readUnicode_hexDigits {n : Nat} (h : n < 32) (rest : List Char) :
    readUnicode ('0' :: '0' :: hexDigit (n / 16) :: hexDigit (n % 16) :: rest) =
      some (Char.ofNat n, rest) := by
  have hzero : hexValue? '0' = some 0 := by decide
  have hhigh := hexValue?_hexDigit (n / 16) (by omega)
  have hlow := hexValue?_hexDigit (n % 16) (by omega)
  have hvalue : 16 * (n / 16) + n % 16 = n := Nat.div_add_mod n 16
  have hnumber : hexNumber? ['0', '0', hexDigit (n / 16), hexDigit (n % 16)] = some n := by
    simp [hexNumber?, hzero, hhigh, hlow, hvalue]
  have hnotLow : ¬0xDC00 ≤ n := by omega
  have hnotHigh : ¬0xD800 ≤ n := by omega
  simp [readUnicode, readUnit, hnumber, hnotLow, hnotHigh]

/-- Whether a character is written as it is or escaped, the reader gets it back. -/
theorem escapeChar_cases (c : Char) :
    (escapeChar c = [c] ∧ c ≠ '"' ∧ c ≠ '\\' ∧ ¬c.toNat < 32) ∨
      ∃ s, escapeChar c = '\\' :: s ∧ ∀ rest, readEscape (s ++ rest) = some (c, rest) := by
  have hc := Char.ofNat_toNat c
  unfold escapeChar
  split_ifs with hquote hescape hnewline hreturn htab hback hfeed hcontrol
  · exact .inr ⟨_, rfl, fun rest => by rw [hquote]; rfl⟩
  · exact .inr ⟨_, rfl, fun rest => by rw [hescape]; rfl⟩
  · exact .inr ⟨_, rfl, fun rest => by rw [hnewline]; rfl⟩
  · exact .inr ⟨_, rfl, fun rest => by rw [hreturn]; rfl⟩
  · exact .inr ⟨_, rfl, fun rest => by rw [htab]; rfl⟩
  · exact .inr ⟨_, rfl, fun rest => by rw [← hc, hback]; rfl⟩
  · exact .inr ⟨_, rfl, fun rest => by rw [← hc, hfeed]; rfl⟩
  · refine .inr ⟨_, rfl, fun rest => ?_⟩
    exact (readUnicode_hexDigits hcontrol rest).trans (by rw [hc])
  · exact .inl ⟨rfl, hquote, hescape, hcontrol⟩

theorem readString_escape {e : Char × List Char} (h : readEscape s = some e) :
    readString ('\\' :: s) = (readString e.2).map fun r => (e.1 :: r.1, r.2) := by
  rw [readString, if_neg (by decide), if_pos rfl]
  split
  · rename_i hnone
    rw [hnone] at h
    cases h
  · rename_i hsome
    rw [hsome] at h
    rw [Option.some.inj h]

theorem readString_escapeChar (c : Char) (rest : List Char) :
    readString (escapeChar c ++ rest) = (readString rest).map fun r => (c :: r.1, r.2) := by
  rcases escapeChar_cases c with ⟨htext, hquote, hescape, hcontrol⟩ | ⟨s, htext, hread⟩
  · rw [htext, List.singleton_append, readString, if_neg hquote, if_neg hescape, if_neg hcontrol]
  · rw [htext, List.cons_append, readString_escape (hread rest)]

end Escapes

/-- A string is read back from its text up to the closing quote. -/
theorem readString_flatMap (s rest : List Char) :
    readString (s.flatMap escapeChar ++ '"' :: rest) = some (s, rest) := by
  induction s with
  | nil => rw [List.flatMap_nil, List.nil_append, readString, if_pos rfl]
  | cons c s ih =>
    rw [List.flatMap_cons, List.append_assoc, readString_escapeChar, ih, Option.map_some]

theorem toList_quote (s : String) :
    (quote s).toList = '"' :: (s.toList.flatMap escapeChar ++ ['"']) := by
  simp [quote]

end Json

end RuleGrounding
