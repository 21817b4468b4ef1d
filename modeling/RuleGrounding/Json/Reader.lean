import RuleGrounding.Json

/-!
# Reading JSON

A reader of a part of a text gives what it read and the rest of the text.
-/

namespace RuleGrounding

namespace Json

/-- Skip blanks, tabs and line ends. -/
def skipBlank : List Char → List Char :=
  List.dropWhile fun c => c = ' ' || c = '\n' || c = '\t' || c = '\r'

/-- The value of a hexadecimal digit. -/
def hexValue? (c : Char) : Option Nat :=
  let n := c.toNat
  if 48 ≤ n ∧ n ≤ 57 then some (n - 48)
  else if 65 ≤ n ∧ n ≤ 70 then some (n - 55)
  else if 97 ≤ n ∧ n ≤ 102 then some (n - 87)
  else none

/-- The value of hexadecimal digits. -/
def hexNumber? (cs : List Char) : Option Nat :=
  cs.foldl (fun acc c => acc.bind fun n => (hexValue? c).map (16 * n + ·)) (some 0)

/-- Read four hexadecimal digits. -/
def readUnit : List Char → Option (Nat × List Char)
  | a :: b :: c :: d :: rest => (hexNumber? [a, b, c, d]).map fun n => (n, rest)
  | _ => none

/-- Read the second half of a character that is written as two escapes. -/
def readLowHalf : List Char → Option (Nat × List Char)
  | '\\' :: 'u' :: rest =>
    (readUnit rest).bind fun r =>
      if 0xDC00 ≤ r.1 ∧ r.1 < 0xE000 then some (r.1 - 0xDC00, r.2) else none
  | _ => none

/-- Read a character that is written as a number. One beyond the first plane takes two escapes;
half of one is refused. -/
def readUnicode (s : List Char) : Option (Char × List Char) :=
  (readUnit s).bind fun r =>
    if 0xDC00 ≤ r.1 ∧ r.1 < 0xE000 then none
    else if 0xD800 ≤ r.1 ∧ r.1 < 0xDC00 then
      (readLowHalf r.2).map fun l => (Char.ofNat (0x10000 + (r.1 - 0xD800) * 0x400 + l.1), l.2)
    else some (Char.ofNat r.1, r.2)

/-- The character that an escape of one letter stands for. -/
def letterEscape? (c : Char) : Option Char :=
  if c = '"' ∨ c = '\\' ∨ c = '/' then some c
  else if c = 'b' then some (Char.ofNat 8)
  else if c = 'f' then some (Char.ofNat 12)
  else if c = 'n' then some '\n'
  else if c = 'r' then some '\r'
  else if c = 't' then some '\t'
  else none

/-- Read an escape behind its backslash. -/
def readEscape : List Char → Option (Char × List Char)
  | [] => none
  | c :: rest => if c = 'u' then readUnicode rest else (letterEscape? c).map fun e => (e, rest)

theorem length_of_readUnit {s : List Char} {r : Nat × List Char} (h : readUnit s = some r) :
    r.2.length < s.length := by
  unfold readUnit at h
  split at h
  · obtain ⟨n, -, rfl⟩ := Option.map_eq_some_iff.mp h
    simp only [List.length_cons]
    omega
  · cases h

theorem length_of_readLowHalf {s : List Char} {r : Nat × List Char}
    (h : readLowHalf s = some r) : r.2.length < s.length := by
  unfold readLowHalf at h
  split at h
  · obtain ⟨u, hu, h⟩ := Option.bind_eq_some_iff.mp h
    have := length_of_readUnit hu
    split at h
    · have h := Option.some.inj h
      subst h
      simp only [List.length_cons]
      omega
    · cases h
  · cases h

theorem length_of_readUnicode {s : List Char} {r : Char × List Char}
    (h : readUnicode s = some r) : r.2.length < s.length := by
  obtain ⟨u, hu, h⟩ := Option.bind_eq_some_iff.mp h
  have hlt := length_of_readUnit hu
  split at h
  · cases h
  · split at h
    · obtain ⟨l, hl, rfl⟩ := Option.map_eq_some_iff.mp h
      exact Nat.lt_trans (length_of_readLowHalf hl) hlt
    · have h := Option.some.inj h
      subst h
      exact hlt

/-- An escape takes at least one character behind the backslash. -/
theorem length_of_readEscape {s : List Char} {r : Char × List Char}
    (h : readEscape s = some r) : r.2.length < s.length := by
  cases s with
  | nil => cases h
  | cons c rest =>
    simp only [readEscape] at h
    split at h
    · exact Nat.lt_trans (length_of_readUnicode h) (Nat.lt_succ_self _)
    · obtain ⟨e, -, rfl⟩ := Option.map_eq_some_iff.mp h
      exact Nat.lt_succ_self _

/-- Read a string behind its opening quote. Control characters have to be escaped. -/
def readString : List Char → Option (List Char × List Char)
  | [] => none
  | c :: rest =>
    if c = '"' then some ([], rest)
    else if c = '\\' then
      match _h : readEscape rest with
      | none => none
      | some e => (readString e.2).map fun r => (e.1 :: r.1, r.2)
    else if c.toNat < 32 then none
    else (readString rest).map fun r => (c :: r.1, r.2)
termination_by s => s.length
decreasing_by
  · have := length_of_readEscape _h
    simp only [List.length_cons]
    omega
  · simp

/-- The number that decimal digits write. -/
def digitsValue (ds : List Char) : Nat := ds.foldl (fun acc d => 10 * acc + (d.toNat - 48)) 0

/-- Read the digits of a fraction, if there is one. -/
def readFraction : List Char → Option (List Char × List Char)
  | '.' :: rest =>
    let ds := rest.takeWhile Char.isDigit
    if ds.isEmpty then none else some (ds, rest.dropWhile Char.isDigit)
  | rest => some ([], rest)

/-- Read the digits of an exponent with a sign. -/
def readSigned (negative : Bool) (s : List Char) : Option (Option Int × List Char) :=
  let ds := s.takeWhile Char.isDigit
  let n : Int := digitsValue ds
  if ds.isEmpty then none
  else some (some (if negative then -n else n), s.dropWhile Char.isDigit)

/-- Read an exponent, if there is one. -/
def readExponent : List Char → Option (Option Int × List Char)
  | c :: rest =>
    if c = 'e' || c = 'E' then
      match rest with
      | '+' :: rest => readSigned false rest
      | '-' :: rest => readSigned true rest
      | rest => readSigned false rest
    else some (none, c :: rest)
  | [] => some (none, [])

/-- Read a number behind its sign. No digit may follow a leading zero. -/
def readMagnitude (negative : Bool) (s : List Char) : Option (Json × List Char) :=
  let whole := s.takeWhile Char.isDigit
  if whole.isEmpty || (whole.head? = some '0' && whole.length ≠ 1) then none
  else
    match readFraction (s.dropWhile Char.isDigit) with
    | none => none
    | some (fraction, rest) =>
      match readExponent rest with
      | none => none
      | some (exponent?, rest) =>
        let n := digitsValue (whole ++ fraction)
        if fraction.isEmpty && exponent?.isNone && !(negative && n = 0) then
          some (.integer (if negative then -n else n), rest)
        else
          some (.real (Decimal.normalize ⟨negative, n, exponent?.getD 0 - fraction.length⟩), rest)

/-- Read a number. -/
def readNumber : List Char → Option (Json × List Char)
  | '-' :: rest => readMagnitude true rest
  | s => readMagnitude false s

mutual

/-- Read a value; the fuel bounds the depth of the calls. -/
def readValue : Nat → List Char → Option (Json × List Char)
  | 0, _ => none
  | fuel + 1, s =>
    match skipBlank s with
    | '\x7b' :: rest =>
      match skipBlank rest with
      | '\x7d' :: rest => some (.object [], rest)
      | rest => (readFields fuel rest).map fun r => (.object r.1, r.2)
    | '[' :: rest =>
      match skipBlank rest with
      | ']' :: rest => some (.array [], rest)
      | rest => (readItems fuel rest).map fun r => (.array r.1, r.2)
    | '"' :: rest => (readString rest).map fun r => (.string (String.ofList r.1), r.2)
    | 'n' :: 'u' :: 'l' :: 'l' :: rest => some (.null, rest)
    | 't' :: 'r' :: 'u' :: 'e' :: rest => some (.bool true, rest)
    | 'f' :: 'a' :: 'l' :: 's' :: 'e' :: rest => some (.bool false, rest)
    | s => readNumber s

/-- Read the items of an array that is not empty, up to its end. -/
def readItems : Nat → List Char → Option (List Json × List Char)
  | 0, _ => none
  | fuel + 1, s =>
    match readValue fuel s with
    | none => none
    | some (j, rest) =>
      match skipBlank rest with
      | ',' :: rest => (readItems fuel rest).map fun r => (j :: r.1, r.2)
      | ']' :: rest => some ([j], rest)
      | _ => none

/-- Read the fields of an object that is not empty, up to its end. -/
def readFields : Nat → List Char → Option (List (String × Json) × List Char)
  | 0, _ => none
  | fuel + 1, s =>
    match skipBlank s with
    | '"' :: rest =>
      match readString rest with
      | none => none
      | some (name, rest) =>
        match skipBlank rest with
        | ':' :: rest =>
          match readValue fuel rest with
          | none => none
          | some (j, rest) =>
            match skipBlank rest with
            | ',' :: rest =>
              (readFields fuel rest).map fun r => ((String.ofList name, j) :: r.1, r.2)
            | '\x7d' :: rest => some ([(String.ofList name, j)], rest)
            | _ => none
        | _ => none
    | _ => none

end

/-- Behind an opening quote a string is read. -/
theorem readValue_quote (fuel : Nat) (s : List Char) :
    readValue (fuel + 1) ('"' :: s) =
      (readString s).map fun r => (string (String.ofList r.1), r.2) := rfl

/-- Behind an opening bracket items are read, unless it is closed at once. -/
theorem readValue_bracket (fuel : Nat) (s : List Char) :
    readValue (fuel + 1) ('[' :: s) =
      match skipBlank s with
      | ']' :: rest => some (array [], rest)
      | rest => (readItems fuel rest).map fun r => (array r.1, r.2) := rfl

/-- Behind an opening brace fields are read, unless it is closed at once. -/
theorem readValue_brace (fuel : Nat) (s : List Char) :
    readValue (fuel + 1) ('\x7b' :: s) =
      match skipBlank s with
      | '\x7d' :: rest => some (object [], rest)
      | rest => (readFields fuel rest).map fun r => (object r.1, r.2) := rfl

section Blanks

variable {fuel : Nat} {s s' : List Char}

/-- Blanks in front make no difference to what is read. -/
theorem readValue_congr (h : skipBlank s = skipBlank s') :
    readValue fuel s = readValue fuel s' := by
  cases fuel with
  | zero => rw [readValue, readValue]
  | succ fuel => rw [readValue, readValue, h]

theorem readItems_congr (h : skipBlank s = skipBlank s') :
    readItems fuel s = readItems fuel s' := by
  cases fuel with
  | zero => rw [readItems, readItems]
  | succ fuel => rw [readItems, readItems, readValue_congr h]

theorem readFields_congr (h : skipBlank s = skipBlank s') :
    readFields fuel s = readFields fuel s' := by
  cases fuel with
  | zero => rw [readFields, readFields]
  | succ fuel => rw [readFields, readFields, h]

end Blanks

/-- Read a text that is one value with nothing but blanks around it. -/
def parse? (text : String) : Option Json :=
  let s := text.toList
  match readValue (2 * s.length + 2) s with
  | none => none
  | some (j, rest) => if (skipBlank rest).isEmpty then some j else none

end Json

end RuleGrounding
