import Mathlib.Data.List.Basic
import Mathlib.Tactic.SplitIfs
import RuleGrounding.Proofs.Json.Strings
import RuleGrounding.Toml.Printer
import RuleGrounding.Toml.Reader

/-!
# Strings read back

Whatever form a string is written in, the reader gets it back. On one line it is read character by
character. Over several lines one or two quotes in a row belong to the string, so the quotes just
written are kept in view until the next character shows that they do not end it.
-/

namespace RuleGrounding

namespace Toml

variable {c quote : Char} {cs s rest : List Char} {escapes long : Bool}

section Characters

/-- What needs no escape may stand as it is, line ends apart. -/
theorem isPlain_of_needsEscape (h : needsEscape c = false) (hn : c ≠ '\n') :
    isPlain c = true := by
  simp only [needsEscape, Bool.and_eq_false_iff, decide_eq_false_iff_not, Bool.or_eq_false_iff,
    Nat.not_lt, not_not] at h
  rw [isPlain, Bool.or_eq_true, Bool.and_eq_true]
  rcases h with (htab | hline) | ⟨hlow, hdelete⟩
  · exact .inl (decide_eq_true htab)
  · exact absurd hline hn
  · exact .inr ⟨decide_eq_true hlow, decide_eq_true hdelete⟩

theorem readNewline_of_ne {s : List Char} (hn : c ≠ '\n') (hr : c ≠ '\r') :
    readNewline (c :: s) = none := by
  unfold readNewline
  split
  · exact absurd (List.cons.inj ‹_›).1 hn
  · exact absurd (List.cons.inj ‹_›).1 hr
  · rfl

/-- Plain characters end no line. -/
theorem readNewline_of_isPlain (h : isPlain c = true) (s : List Char) :
    readNewline (c :: s) = none := by
  refine readNewline_of_ne (ne_of_apply_ne isPlain ?_) (ne_of_apply_ne isPlain ?_)
  · rw [h]
    decide
  · rw [h]
    decide

end Characters

section Escapes

theorem hexValue?_hexDigit : ∀ n < 16, Json.hexValue? (hexDigit n) = some n := by decide

/-- A control character is written as a number with four digits. -/
theorem readEscape_hexDigits {n : Nat} (h : n < 128) (rest : List Char) :
    readEscape ('u' :: '0' :: '0' :: hexDigit (n / 16) :: hexDigit (n % 16) :: rest) =
      some (Char.ofNat n, rest) := by
  have hzero : Json.hexValue? '0' = some 0 := by decide
  have hhigh := hexValue?_hexDigit (n / 16) (by omega)
  have hlow := hexValue?_hexDigit (n % 16) (by omega)
  have hvalue : 16 * (n / 16) + n % 16 = n := Nat.div_add_mod n 16
  have hnumber : Json.hexNumber? ['0', '0', hexDigit (n / 16), hexDigit (n % 16)] = some n := by
    simp [Json.hexNumber?, hzero, hhigh, hlow, hvalue]
  have hvalid : n.isValidChar := .inl (by omega)
  simp [readEscape, hnumber, scalarValue?, hvalid]

/-- How the reader sees what stands behind a backslash: as an escape, not as the end of a line. -/
structure Escapes (c : Char) (s : List Char) : Prop where
  /-- The escape is read as the character. -/
  reads : ∀ rest, readEscape (s ++ rest) = some (c, rest)
  /-- The line goes on. -/
  stays : ∀ rest, readNewline (skipBlank (s ++ rest)) = none

theorem escapes_quote : Escapes '"' ['"'] := ⟨fun _ => rfl, fun _ => rfl⟩

/-- Whether a character is written as it is or escaped, the reader gets it back. -/
theorem escapeChar_cases (long : Bool) (c : Char) :
    (escapeChar long c = [c] ∧ c ≠ '\\' ∧ (isPlain c = true ∨ c = '\n' ∧ long = true)) ∨
      ∃ s, escapeChar long c = '\\' :: s ∧ Escapes c s := by
  have hc := Char.ofNat_toNat c
  unfold escapeChar
  split_ifs with hescape hnewline hlong hreturn htab hback hfeed hcontrol
  · exact .inr ⟨_, rfl, by rw [hescape]; exact ⟨fun _ => rfl, fun _ => rfl⟩⟩
  · exact .inl ⟨by rw [hnewline], hescape, .inr ⟨hnewline, hlong⟩⟩
  · exact .inr ⟨_, rfl, by rw [hnewline]; exact ⟨fun _ => rfl, fun _ => rfl⟩⟩
  · exact .inr ⟨_, rfl, by rw [hreturn]; exact ⟨fun _ => rfl, fun _ => rfl⟩⟩
  · exact .inr ⟨_, rfl, by rw [htab]; exact ⟨fun _ => rfl, fun _ => rfl⟩⟩
  · exact .inr ⟨_, rfl, by rw [← hc, hback]; exact ⟨fun _ => rfl, fun _ => rfl⟩⟩
  · exact .inr ⟨_, rfl, by rw [← hc, hfeed]; exact ⟨fun _ => rfl, fun _ => rfl⟩⟩
  · refine .inr ⟨_, rfl, fun rest => ?_, fun _ => rfl⟩
    exact (readEscape_hexDigits (by omega) rest).trans (by rw [hc])
  · rw [not_or, Nat.not_lt] at hcontrol
    refine .inl ⟨rfl, hescape, .inl ?_⟩
    simp [isPlain, hcontrol]

end Escapes

section Lines

theorem readBasic_escape {r : Char × List Char} (h : readEscape s = some r) :
    readBasic ('\\' :: s) = (readBasic r.2).map fun l => (r.1 :: l.1, l.2) := by
  rw [readBasic, if_neg (by decide), if_pos rfl]
  split
  · rename_i hnone
    rw [hnone] at h
    cases h
  · rename_i hsome
    rw [hsome] at h
    rw [Option.some.inj h]

theorem readBasic_plain (hquote : c ≠ '"') (hescape : c ≠ '\\') (hplain : isPlain c = true) :
    readBasic (c :: s) = (readBasic s).map fun r => (c :: r.1, r.2) := by
  rw [readBasic, if_neg hquote, if_neg hescape, if_pos hplain]

/-- A string on one line is read back up to its closing quote. -/
theorem readBasic_escapeBody (cs : List Char) (run : Nat) (rest : List Char) :
    readBasic (escapeBody false run cs ++ '"' :: rest) = some (cs, rest) := by
  induction cs generalizing run with
  | nil => rw [escapeBody, List.nil_append, readBasic, if_pos rfl]
  | cons c cs ih =>
    rw [escapeBody]
    by_cases hquote : c = '"'
    · have hread : readEscape ('"' :: (escapeBody false 0 cs ++ '"' :: rest)) =
          some ('"', escapeBody false 0 cs ++ '"' :: rest) := rfl
      rw [if_pos hquote, if_neg (by simp), List.cons_append, List.cons_append,
        readBasic_escape hread, ih, hquote]
      rfl
    · rw [if_neg hquote, List.append_assoc]
      rcases escapeChar_cases false c with ⟨htext, hescape, hplain | ⟨-, hfalse⟩⟩ | ⟨s, htext, hs⟩
      · rw [htext, List.singleton_append, readBasic_plain hquote hescape hplain, ih]
        rfl
      · cases hfalse
      · rw [htext, List.cons_append, readBasic_escape (hs.reads _), ih]
        rfl

/-- So is one without escapes. -/
theorem readLiteral_append (hplain : ∀ c ∈ cs, isPlain c = true) (hquote : '\'' ∉ cs)
    (rest : List Char) : readLiteral (cs ++ '\'' :: rest) = some (cs, rest) := by
  induction cs with
  | nil => rw [List.nil_append, readLiteral, if_pos rfl]
  | cons c cs ih =>
    obtain ⟨hc, hcs⟩ := not_or.mp (mt List.mem_cons.mpr hquote)
    rw [List.cons_append, readLiteral, if_neg (Ne.symm hc),
      if_pos (hplain c List.mem_cons_self),
      ih (fun d hd => hplain d (List.mem_cons_of_mem _ hd)) hcs]
    rfl

end Lines

section LongStrings

/-- With fuel for its length, a text behind the opening quotes is read as a string. -/
def ReadsLong (quote : Char) (escapes : Bool) (s : List Char) (r : List Char × List Char) : Prop :=
  ∀ fuel, s.length < fuel → readLong quote escapes fuel s = some r

variable {r : List Char × List Char} {n : Nat}

theorem ReadsLong.succ {s : List Char}
    (h : ∀ fuel, s.length ≤ fuel → readLong quote escapes (fuel + 1) s = some r) :
    ReadsLong quote escapes s r := by
  intro fuel hfuel
  obtain ⟨fuel, rfl⟩ : ∃ f, fuel = f + 1 := ⟨fuel - 1, by omega⟩
  exact h fuel (by omega)

theorem takeWhile_quotes (hs : s.head? ≠ some quote) (n : Nat) :
    (List.replicate n quote ++ s).takeWhile (fun c => c = quote) = List.replicate n quote := by
  rw [List.takeWhile_append_of_pos fun c hc => decide_eq_true (List.eq_of_mem_replicate hc)]
  cases s with
  | nil => rw [List.takeWhile_nil, List.append_nil]
  | cons c s =>
    rw [List.takeWhile_cons_of_neg (by simpa using hs), List.append_nil]

/-- Three quotes end the string, and up to two in front of them belong to it. -/
theorem readsLong_close (hn : n ≤ 2) (hrest : rest.head? ≠ some quote) :
    ReadsLong quote escapes (List.replicate n quote ++ quote :: quote :: quote :: rest)
      (List.replicate n quote, rest) := by
  have hquotes : List.replicate n quote ++ quote :: quote :: quote :: rest =
      List.replicate (n + 3) quote ++ rest := by
    rw [List.replicate_add, List.append_assoc]
    rfl
  have hkept : Nat.min n 2 = n := Nat.min_eq_left hn
  have hsplit : splitQuotes quote (List.replicate (n + 3) quote ++ rest) =
      (List.replicate n quote, some rest) := by
    rw [splitQuotes, takeWhile_quotes hrest]
    simp [hkept]
  rw [hquotes]
  refine ReadsLong.succ fun fuel _ => ?_
  rw [List.replicate_succ, List.cons_append] at hsplit ⊢
  rw [readLong_quote]
  simp only [hsplit]

/-- Up to two quotes in a row belong to the string if it goes on with another character. -/
theorem ReadsLong.quotes (h : ReadsLong quote escapes s r) (hs : s.head? ≠ some quote)
    (hn : n ≤ 2) :
    ReadsLong quote escapes (List.replicate n quote ++ s) (List.replicate n quote ++ r.1, r.2) := by
  cases n with
  | zero => exact h
  | succ n =>
    have hsplit : splitQuotes quote (List.replicate (n + 1) quote ++ s) =
        (List.replicate (n + 1) quote, none) := by
      rw [splitQuotes, takeWhile_quotes hs, List.length_replicate, if_pos (by omega)]
    have hdrop : (List.replicate (n + 1) quote ++ s).drop
        (List.replicate (n + 1) quote).length = s := List.drop_left
    refine ReadsLong.succ fun fuel hfuel => ?_
    rw [List.length_append, List.length_replicate] at hfuel
    have hread := h fuel (by omega)
    rw [List.replicate_succ, List.cons_append] at hsplit hdrop ⊢
    rw [readLong_quote]
    simp only [hsplit, hdrop, hread, Option.map_some]

theorem ReadsLong.plain (h : ReadsLong quote escapes s r) (hquote : c ≠ quote)
    (hescape : (escapes && decide (c = '\\')) = false) (hplain : isPlain c = true) :
    ReadsLong quote escapes (c :: s) (c :: r.1, r.2) := by
  refine ReadsLong.succ fun fuel hfuel => ?_
  rw [readLong_of_ne hquote hescape]
  simp only [readNewline_of_isPlain hplain, if_pos hplain, h fuel hfuel]
  rfl

theorem ReadsLong.newline (h : ReadsLong quote escapes s r) (hquote : '\n' ≠ quote) :
    ReadsLong quote escapes ('\n' :: s) ('\n' :: r.1, r.2) := by
  refine ReadsLong.succ fun fuel hfuel => ?_
  rw [readLong_of_ne hquote (Bool.and_false escapes)]
  simp only [readNewline, h fuel hfuel]
  rfl

theorem ReadsLong.escape {e : List Char} (h : ReadsLong quote true s r) (hquote : '\\' ≠ quote)
    (he : Escapes c e) : ReadsLong quote true ('\\' :: (e ++ s)) (c :: r.1, r.2) := by
  refine ReadsLong.succ fun fuel hfuel => ?_
  rw [List.length_cons, List.length_append] at hfuel
  rw [readLong_backslash hquote]
  simp only [he.stays, he.reads, Option.bind_some, h fuel (by omega)]
  rfl

/-- A string over several lines is read back up to its closing quotes, the quotes in front of it
included. -/
theorem readsLong_escapeBody (cs : List Char) {run : Nat} (hrun : run ≤ 2)
    (hrest : rest.head? ≠ some '"') :
    ReadsLong '"' true
      (List.replicate run '"' ++ (escapeBody true run cs ++ '"' :: '"' :: '"' :: rest))
      (List.replicate run '"' ++ cs, rest) := by
  -- A quote that stands as it is joins those in front of it; any other character shows that they
  -- do not end the string, and starts a new count.
  induction cs generalizing run with
  | nil =>
    rw [escapeBody, List.nil_append, List.append_nil]
    exact readsLong_close hrun hrest
  | cons c cs ih =>
    rw [escapeBody]
    by_cases hquote : c = '"'
    · by_cases hmore : run < 2
      · have hread := @ih (run + 1) (by omega)
        rw [if_pos hquote, if_pos (by simpa using hmore), hquote]
        rw [List.replicate_succ', List.append_assoc, List.append_assoc] at hread
        exact hread
      · rw [if_pos hquote, if_neg (by simpa using hmore), hquote]
        have hread := (@ih 0 (by omega)).escape (by decide) escapes_quote
        exact hread.quotes (by simp) hrun
    · rw [if_neg hquote, List.append_assoc]
      have hread := @ih 0 (by omega)
      rcases escapeChar_cases true c with ⟨htext, hescape, hplain | ⟨hline, -⟩⟩ | ⟨s, htext, hs⟩
      · rw [htext, List.singleton_append]
        exact (hread.plain hquote (by simpa using hescape) hplain).quotes (by simpa using hquote)
          hrun
      · rw [htext, List.singleton_append, hline]
        exact (hread.newline (by decide)).quotes (by simp) hrun
      · rw [htext, List.cons_append]
        exact (hread.escape (by decide) hs).quotes (by simp) hrun

/-- No run of a character is longer than a number, where some of them stand in front already. -/
def RunsWithin (quote : Char) (n : Nat) : Nat → List Char → Prop
  | _, [] => True
  | run, c :: cs =>
    if c = quote then run + 1 ≤ n ∧ RunsWithin quote n (run + 1) cs else RunsWithin quote n 0 cs

/-- While the longest run is counted, the length of the current one is known. -/
theorem foldl_run_le_iff (cs : List Char) (run best : Nat) :
    (cs.foldl (fun (acc : Nat × Nat) d =>
      if d = quote then (acc.1 + 1, Nat.max acc.2 (acc.1 + 1)) else (0, acc.2)) (run, best)).2 ≤ n ↔
      best ≤ n ∧ RunsWithin quote n run cs := by
  induction cs generalizing run best with
  | nil => exact (and_iff_left True.intro).symm
  | cons c cs ih =>
    rw [List.foldl_cons, RunsWithin]
    by_cases hc : c = quote
    · rw [if_pos hc, if_pos hc, ih]
      exact (and_congr_left fun _ => Nat.max_le).trans and_assoc
    · rw [if_neg hc, if_neg hc, ih]

theorem longestRun_le_iff : longestRun quote cs ≤ n ↔ RunsWithin quote n 0 cs := by
  rw [longestRun, foldl_run_le_iff, and_iff_right (Nat.zero_le n)]

/-- A string over several lines without escapes is read back if its quotes stand at most two in a
row. -/
theorem readsLong_literal (cs : List Char) {run : Nat} (hrun : run ≤ 2)
    (hchars : ∀ c ∈ cs, needsEscape c = false) (hquotes : RunsWithin '\'' 2 run cs)
    (hrest : rest.head? ≠ some '\'') :
    ReadsLong '\'' false
      (List.replicate run '\'' ++ (cs ++ '\'' :: '\'' :: '\'' :: rest))
      (List.replicate run '\'' ++ cs, rest) := by
  induction cs generalizing run with
  | nil =>
    rw [List.nil_append, List.append_nil]
    exact readsLong_close hrun hrest
  | cons c cs ih =>
    have hcs : ∀ d ∈ cs, needsEscape d = false := fun d hd => hchars d (List.mem_cons_of_mem _ hd)
    rw [RunsWithin] at hquotes
    by_cases hquote : c = '\''
    · rw [if_pos hquote] at hquotes
      have hread := ih hquotes.1 hcs hquotes.2
      rw [List.replicate_succ', List.append_assoc, List.append_assoc] at hread
      rw [hquote]
      exact hread
    · rw [if_neg hquote] at hquotes
      have hread := @ih 0 (by omega) hcs hquotes
      by_cases hline : c = '\n'
      · rw [hline]
        exact (hread.newline (by decide)).quotes (by simp) hrun
      · have hplain := isPlain_of_needsEscape (hchars c List.mem_cons_self) hline
        exact (hread.plain hquote (by simp) hplain).quotes (by simpa using hquote) hrun

end LongStrings

section Forms

/-- What stands behind a string is no further quote. -/
def EndsString (rest : List Char) : Prop := rest.head? ≠ some '"' ∧ rest.head? ≠ some '\''

theorem readString_basic (h : ∀ t, s ≠ '"' :: '"' :: t) : readString ('"' :: s) = readBasic s := by
  rw [readString]
  exact h

theorem readString_literal (h : ∀ t, s ≠ '\'' :: '\'' :: t) :
    readString ('\'' :: s) = readLiteral s := by
  rw [readString]
  exact h

/-- The line end behind the opening quotes does not belong to the string. -/
theorem readNewline_openingNewline (h : '\n' ∉ cs → readNewline s = none) :
    (readNewline (openingNewline cs ++ s)).getD (openingNewline cs ++ s) = s := by
  rw [openingNewline]
  split
  · rfl
  · rename_i hline
    rw [List.nil_append, h hline]
    rfl

/-- How the text of a string between double quotes starts. -/
theorem exists_cons_escapeBody (long : Bool) (c : Char) (cs s : List Char) :
    ∃ d t, escapeBody long 0 (c :: cs) ++ s = d :: t ∧
      (d = '\\' ∨ (d = '"' ∧ long = true) ∨
        (d = c ∧ c ≠ '"' ∧ (isPlain c = true ∨ c = '\n' ∧ long = true))) := by
  rw [escapeBody]
  by_cases hquote : c = '"'
  · rw [if_pos hquote]
    split
    · rename_i hlong
      exact ⟨_, _, rfl, .inr (.inl ⟨rfl, by simpa using hlong⟩)⟩
    · exact ⟨_, _, rfl, .inl rfl⟩
  · rw [if_neg hquote]
    rcases escapeChar_cases long c with ⟨htext, -, hplain⟩ | ⟨e, htext, -⟩
    · rw [htext]
      exact ⟨_, _, rfl, .inr (.inr ⟨rfl, hquote, hplain⟩)⟩
    · rw [htext]
      exact ⟨_, _, rfl, .inl rfl⟩

theorem readString_basicText (cs : List Char) (hrest : EndsString rest) :
    readString (basicText cs ++ rest) = some (cs, rest) := by
  have htext : basicText cs ++ rest = '"' :: (escapeBody false 0 cs ++ '"' :: rest) := by
    simp [basicText]
  have hbody : ∀ t, escapeBody false 0 cs ++ '"' :: rest ≠ '"' :: '"' :: t := by
    intro t heq
    cases cs with
    | nil => exact hrest.1 (by rw [(List.cons.inj heq).2]; rfl)
    | cons c cs =>
      obtain ⟨d, s, hcons, hd⟩ := exists_cons_escapeBody false c cs ('"' :: rest)
      obtain rfl : d = '"' := (List.cons.inj (hcons.symm.trans heq)).1
      rcases hd with hd | ⟨-, hd⟩ | ⟨hd, hquote, -⟩
      · exact absurd hd (by decide)
      · cases hd
      · exact hquote hd.symm
  rw [htext, readString_basic hbody, readBasic_escapeBody]

theorem readString_literalText (hplain : ∀ c ∈ cs, isPlain c = true) (hquote : '\'' ∉ cs)
    (hrest : EndsString rest) : readString (literalText cs ++ rest) = some (cs, rest) := by
  have htext : literalText cs ++ rest = '\'' :: (cs ++ '\'' :: rest) := by simp [literalText]
  have hbody : ∀ t, cs ++ '\'' :: rest ≠ '\'' :: '\'' :: t := by
    intro t heq
    cases cs with
    | nil => exact hrest.2 (by rw [(List.cons.inj heq).2]; rfl)
    | cons c cs => exact hquote (by rw [(List.cons.inj heq).1]; exact List.mem_cons_self)
  rw [htext, readString_literal hbody, readLiteral_append hplain hquote]

theorem readString_longBasicText (cs : List Char) (hrest : EndsString rest) :
    readString (longBasicText cs ++ rest) = some (cs, rest) := by
  have htext : longBasicText cs ++ rest = '"' :: '"' :: '"' ::
      (openingNewline cs ++ (escapeBody true 0 cs ++ '"' :: '"' :: '"' :: rest)) := by
    simp [longBasicText]
  have hstart : '\n' ∉ cs →
      readNewline (escapeBody true 0 cs ++ '"' :: '"' :: '"' :: rest) = none := by
    intro hline
    cases cs with
    | nil => rfl
    | cons c cs =>
      obtain ⟨d, s, hcons, hd⟩ := exists_cons_escapeBody true c cs ('"' :: '"' :: '"' :: rest)
      rw [hcons]
      rcases hd with rfl | ⟨rfl, -⟩ | ⟨rfl, -, hplain | ⟨rfl, -⟩⟩
      · rfl
      · rfl
      · exact readNewline_of_isPlain hplain s
      · exact absurd List.mem_cons_self hline
  rw [htext, readString_longBasic, readNewline_openingNewline hstart]
  exact readsLong_escapeBody cs (Nat.zero_le 2) hrest.1 _ (Nat.lt_succ_self _)

theorem readString_longLiteralText (hchars : ∀ c ∈ cs, needsEscape c = false)
    (hrun : longestRun '\'' cs ≤ 2) (hrest : EndsString rest) :
    readString (longLiteralText cs ++ rest) = some (cs, rest) := by
  have htext : longLiteralText cs ++ rest = '\'' :: '\'' :: '\'' ::
      (openingNewline cs ++ (cs ++ '\'' :: '\'' :: '\'' :: rest)) := by
    simp [longLiteralText]
  have hstart : '\n' ∉ cs → readNewline (cs ++ '\'' :: '\'' :: '\'' :: rest) = none := by
    intro hline
    cases cs with
    | nil => rfl
    | cons c cs =>
      have hc : c ≠ '\n' := fun heq => hline (heq ▸ List.mem_cons_self)
      exact readNewline_of_isPlain (isPlain_of_needsEscape (hchars c List.mem_cons_self) hc) _
  rw [htext, readString_longLiteral, readNewline_openingNewline hstart]
  exact readsLong_literal cs (Nat.zero_le 2) hchars (longestRun_le_iff.mp hrun) hrest.2 _
    (Nat.lt_succ_self _)

/-- Every string is read back from the form that was chosen for it. -/
theorem readString_quoteChars (cs : List Char) (hrest : EndsString rest) :
    readString (quoteChars cs ++ rest) = some (cs, rest) := by
  have hchars : cs.any needsEscape = false → ∀ c ∈ cs, needsEscape c = false := by
    intro h c hc
    exact Bool.eq_false_iff.mpr (List.any_eq_false.mp h c hc)
  simp only [quoteChars]
  split_ifs with hbasic hliteral hlong hlongLiteral hline
  · exact readString_basicText cs hrest
  · simp only [Bool.and_eq_true, Bool.not_eq_true', decide_eq_true_eq, decide_eq_false_iff_not]
      at hliteral
    obtain ⟨⟨hescapes, hquote⟩, hline⟩ := hliteral
    refine readString_literalText (fun c hc => ?_) hquote hrest
    exact isPlain_of_needsEscape (hchars hescapes c hc) fun heq => hline (heq ▸ hc)
  · exact readString_longBasicText cs hrest
  · simp only [Bool.and_eq_true, Bool.not_eq_true', decide_eq_true_eq] at hlongLiteral
    exact readString_longLiteralText (hchars hlongLiteral.1) hlongLiteral.2 hrest
  · exact readString_longBasicText cs hrest
  · exact readString_basicText cs hrest

/-- Every form starts with a quote. -/
theorem exists_cons_quoteChars (cs : List Char) :
    ∃ c s, quoteChars cs = c :: s ∧ (c = '"' ∨ c = '\'') := by
  simp only [quoteChars]
  split_ifs
  · exact ⟨_, _, rfl, .inl rfl⟩
  · exact ⟨_, _, rfl, .inr rfl⟩
  · exact ⟨_, _, rfl, .inl rfl⟩
  · exact ⟨_, _, rfl, .inr rfl⟩
  · exact ⟨_, _, rfl, .inl rfl⟩
  · exact ⟨_, _, rfl, .inl rfl⟩

theorem exists_cons_quote (name : String) :
    ∃ c s, (Toml.quote name).toList = c :: s ∧ (c = '"' ∨ c = '\'') := by
  rw [Toml.quote, String.toList_ofList]
  exact exists_cons_quoteChars name.toList

/-- A string is read back from its text. -/
theorem readValue_quote (name : String) (fuel depth : Nat) (hrest : EndsString rest) :
    readValue (fuel + 1) depth ((Toml.quote name).toList ++ rest) = some (.string name, rest) := by
  have hread := readString_quoteChars name.toList hrest
  obtain ⟨c, s, hcons, hc⟩ := exists_cons_quoteChars name.toList
  rw [Toml.quote, String.toList_ofList]
  rw [hcons, List.cons_append] at hread ⊢
  rcases hc with rfl | rfl
  · rw [readValue, hread]
    simp
  · rw [readValue, hread]
    simp

end Forms

end Toml

end RuleGrounding
