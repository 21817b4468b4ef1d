import RuleGrounding.Toml.Scalar

/-!
# Reading TOML

A reader of a part of a text gives what it read and the rest of the text.
-/

namespace RuleGrounding

namespace Toml

/-- Whether a character may stand in a comment or, unescaped, in a string: everything but control
characters other than the tab. -/
def isPlain (c : Char) : Bool := c = '\t' || (decide (32 ≤ c.toNat) && decide (c.toNat ≠ 127))

/-- Skip blanks and tabs. -/
def skipBlank : List Char → List Char := List.dropWhile fun c => c = ' ' || c = '\t'

/-- Read the end of a line. -/
def readNewline : List Char → Option (List Char)
  | '\n' :: rest => some rest
  | '\r' :: '\n' :: rest => some rest
  | _ => none

/-- Skip a comment, if there is one. -/
def skipComment : List Char → List Char
  | '#' :: rest => rest.dropWhile isPlain
  | s => s

/-- Read what may follow a statement: blanks, a comment, and the end of the line or the text. -/
def readLineEnd (s : List Char) : Option (List Char) :=
  match skipComment (skipBlank s) with
  | [] => some []
  | s => readNewline s

/-- Skip blanks, comments and line ends, at most `fuel` of them. -/
def skipLines : Nat → List Char → List Char
  | 0, s => s
  | fuel + 1, s =>
    match skipComment (skipBlank s) with
    | '\n' :: rest => skipLines fuel rest
    | '\r' :: '\n' :: rest => skipLines fuel rest
    | rest => rest

/-- The character of a number, unless it is half of a character. -/
def scalarValue? (n : Nat) : Option Char := if n.isValidChar then some (Char.ofNat n) else none

/-- Read an escape behind its backslash. -/
def readEscape : List Char → Option (Char × List Char)
  | [] => none
  | c :: rest =>
    if c = 'u' then
      (Json.hexNumber? (rest.take 4)).bind fun n =>
        if rest.length < 4 then none else (scalarValue? n).map fun c => (c, rest.drop 4)
    else if c = 'U' then
      (Json.hexNumber? (rest.take 8)).bind fun n =>
        if rest.length < 8 then none else (scalarValue? n).map fun c => (c, rest.drop 8)
    else if c = '/' then none
    else (Json.letterEscape? c).map fun e => (e, rest)

/-- An escape takes at least one character behind the backslash. -/
theorem length_of_readEscape {s : List Char} {r : Char × List Char}
    (h : readEscape s = some r) : r.2.length < s.length := by
  cases s with
  | nil => cases h
  | cons c rest =>
    simp only [readEscape] at h
    split at h
    · obtain ⟨n, -, h⟩ := Option.bind_eq_some_iff.mp h
      split at h
      · cases h
      · obtain ⟨d, -, rfl⟩ := Option.map_eq_some_iff.mp h
        simp only [List.length_drop, List.length_cons]
        omega
    · split at h
      · obtain ⟨n, -, h⟩ := Option.bind_eq_some_iff.mp h
        split at h
        · cases h
        · obtain ⟨d, -, rfl⟩ := Option.map_eq_some_iff.mp h
          simp only [List.length_drop, List.length_cons]
          omega
      · split at h
        · cases h
        · obtain ⟨e, -, rfl⟩ := Option.map_eq_some_iff.mp h
          exact Nat.lt_succ_self _

/-- Read a string on one line behind its opening double quote. -/
def readBasic : List Char → Option (List Char × List Char)
  | [] => none
  | c :: rest =>
    if c = '"' then some ([], rest)
    else if c = '\\' then
      match _h : readEscape rest with
      | none => none
      | some e => (readBasic e.2).map fun r => (e.1 :: r.1, r.2)
    else if isPlain c then (readBasic rest).map fun r => (c :: r.1, r.2)
    else none
termination_by s => s.length
decreasing_by
  · have := length_of_readEscape _h
    simp only [List.length_cons]
    omega
  · simp

/-- Read a string without escapes on one line behind its opening single quote. -/
def readLiteral : List Char → Option (List Char × List Char)
  | [] => none
  | c :: rest =>
    if c = '\'' then some ([], rest)
    else if isPlain c then (readLiteral rest).map fun r => (c :: r.1, r.2)
    else none

/-- Split off the quotes at the start of a text. Three of them end a string of several lines; one
or two in front of those belong to the string. Without an end, all quotes belong to the string. -/
def splitQuotes (quote : Char) (s : List Char) : List Char × Option (List Char) :=
  let n := (s.takeWhile fun c => c = quote).length
  if n < 3 then (List.replicate n quote, none)
  else
    let kept := Nat.min (n - 3) 2
    (List.replicate kept quote, some (s.drop (kept + 3)))

/-- Skip blanks and line ends. -/
def skipWhite : Nat → List Char → List Char
  | 0, s => s
  | fuel + 1, s =>
    match skipBlank s with
    | '\n' :: rest => skipWhite fuel rest
    | '\r' :: '\n' :: rest => skipWhite fuel rest
    | rest => rest

/-- Read a string of several lines behind its opening quotes; the fuel bounds its length. In a
string with escapes, a backslash at the end of a line joins the lines. -/
def readLong (quote : Char) (escapes : Bool) : Nat → List Char → Option (List Char × List Char)
  | 0, _ => none
  | fuel + 1, s =>
    let more := fun (cs : List Char) (rest : List Char) =>
      (readLong quote escapes fuel rest).map fun r => (cs ++ r.1, r.2)
    match s with
    | [] => none
    | c :: rest =>
      if c = quote then
        match splitQuotes quote s with
        | (cs, some rest) => some (cs, rest)
        | (cs, none) => more cs (s.drop cs.length)
      else if escapes && c = '\\' then
        match readNewline (skipBlank rest) with
        | some rest => more [] (skipWhite rest.length rest)
        | none => (readEscape rest).bind fun e => more [e.1] e.2
      else
        match readNewline s with
        | some rest => more ['\n'] rest
        | none => if isPlain c then more [c] rest else none

section Long

variable {quote c : Char} {escapes : Bool}

/-- Quotes end a string of several lines or belong to it. -/
theorem readLong_quote (fuel : Nat) (s : List Char) :
    readLong quote escapes (fuel + 1) (quote :: s) =
      match splitQuotes quote (quote :: s) with
      | (cs, some rest) => some (cs, rest)
      | (cs, none) =>
        (readLong quote escapes fuel ((quote :: s).drop cs.length)).map
          fun r => (cs ++ r.1, r.2) :=
  if_pos rfl

/-- A backslash joins two lines or stands in front of an escape. -/
theorem readLong_backslash (hquote : '\\' ≠ quote) (fuel : Nat) (s : List Char) :
    readLong quote true (fuel + 1) ('\\' :: s) =
      match readNewline (skipBlank s) with
      | some rest =>
        (readLong quote true fuel (skipWhite rest.length rest)).map fun r => ([] ++ r.1, r.2)
      | none =>
        (readEscape s).bind fun e =>
          (readLong quote true fuel e.2).map fun r => ([e.1] ++ r.1, r.2) :=
  (if_neg hquote).trans (if_pos rfl)

/-- Any other character ends a line or stands for itself. -/
theorem readLong_of_ne (hquote : c ≠ quote) (hescape : (escapes && decide (c = '\\')) = false)
    (fuel : Nat) (s : List Char) :
    readLong quote escapes (fuel + 1) (c :: s) =
      match readNewline (c :: s) with
      | some rest => (readLong quote escapes fuel rest).map fun r => (['\n'] ++ r.1, r.2)
      | none =>
        if isPlain c then (readLong quote escapes fuel s).map fun r => ([c] ++ r.1, r.2)
        else none :=
  (if_neg hquote).trans (if_neg (Bool.eq_false_iff.mp hescape))

end Long

/-- Read a string with its quotes. The first line end of a string of several lines is not part of
it. -/
def readString : List Char → Option (List Char × List Char)
  | '"' :: '"' :: '"' :: rest =>
    let body := (readNewline rest).getD rest
    readLong '"' true (body.length + 1) body
  | '\'' :: '\'' :: '\'' :: rest =>
    let body := (readNewline rest).getD rest
    readLong '\'' false (body.length + 1) body
  | '"' :: rest => readBasic rest
  | '\'' :: rest => readLiteral rest
  | _ => none

/-- Behind three double quotes a string of several lines is read. -/
theorem readString_longBasic (s : List Char) :
    readString ('"' :: '"' :: '"' :: s) =
      readLong '"' true (((readNewline s).getD s).length + 1) ((readNewline s).getD s) := rfl

/-- Behind three single quotes one without escapes is read. -/
theorem readString_longLiteral (s : List Char) :
    readString ('\'' :: '\'' :: '\'' :: s) =
      readLong '\'' false (((readNewline s).getD s).length + 1) ((readNewline s).getD s) := rfl

/-- Whether a character may stand in a key without quotes. -/
def isBare (c : Char) : Bool := c.isAlphanum || c = '_' || c = '-'

/-- Read a key without dots. -/
def readSimpleKey : List Char → Option (String × List Char)
  | [] => none
  | c :: rest =>
    if c = '"' then (readBasic rest).map fun r => (String.ofList r.1, r.2)
    else if c = '\'' then (readLiteral rest).map fun r => (String.ofList r.1, r.2)
    else if isBare c then
      some (String.ofList ((c :: rest).takeWhile isBare), (c :: rest).dropWhile isBare)
    else none

/-- The number of keys that a dotted key stays below, and the number of levels that nested values
stay below. -/
def nestingLimit : Nat := 80

/-- Read a dotted key with blanks around its parts; the fuel bounds their number. -/
def readPath : Nat → List Char → Option (List String × List Char)
  | 0, _ => none
  | fuel + 1, s =>
    match readSimpleKey (skipBlank s) with
    | none => none
    | some (key, rest) =>
      match skipBlank rest with
      | '.' :: rest => (readPath fuel rest).map fun r => (key :: r.1, r.2)
      | rest => some ([key], rest)

/-- Read the path of a key or a header. -/
def readKey (s : List Char) : Option (List String × List Char) := readPath (nestingLimit - 1) s

/-- Whether a character may stand in a number or a name of a value. -/
def isWordChar (c : Char) : Bool := c.isAlphanum || c = '_' || c = '-' || c = '+' || c = '.'

/-- Read a value that is no string, array or table. -/
def readScalar (s : List Char) : Option (Toml × List Char) :=
  match readDateTime s with
  | some rest => some (.dateTime, rest)
  | none => (word? (s.takeWhile isWordChar)).map fun v => (v, s.dropWhile isWordChar)

mutual

/-- Read a value. The depth bounds the nesting and the fuel the number of calls. -/
def readValue : Nat → Nat → List Char → Option (Toml × List Char)
  | 0, _, _ => none
  | fuel + 1, depth, s =>
    match s with
    | '[' :: rest =>
      match depth with
      | 0 => none
      | depth + 1 => (readItems fuel depth rest).map fun r => (.array false r.1, r.2)
    | '\x7b' :: rest =>
      match depth with
      | 0 => none
      | depth + 1 =>
        match skipBlank rest with
        | '\x7d' :: rest => (ofPairs []).map fun t => (t, rest)
        | rest =>
          (readPairs fuel depth rest).bind fun r => (ofPairs r.1).map fun t => (t, r.2)
    | '"' :: _ => (readString s).map fun r => (.string (String.ofList r.1), r.2)
    | '\'' :: _ => (readString s).map fun r => (.string (String.ofList r.1), r.2)
    | _ => readScalar s

/-- Read the items of an array up to its end; a comma may stand behind the last one. -/
def readItems : Nat → Nat → List Char → Option (List Toml × List Char)
  | 0, _, _ => none
  | fuel + 1, depth, s =>
    match skipLines s.length s with
    | ']' :: rest => some ([], rest)
    | s =>
      match readValue fuel depth s with
      | none => none
      | some (v, rest) =>
        match skipLines rest.length rest with
        | ',' :: rest => (readItems fuel depth rest).map fun r => (v :: r.1, r.2)
        | ']' :: rest => some ([v], rest)
        | _ => none

/-- Read the pairs between braces, of which there is at least one, up to their end. -/
def readPairs : Nat → Nat → List Char → Option (List (List String × Toml) × List Char)
  | 0, _, _ => none
  | fuel + 1, depth, s =>
    match readKey s with
    | some (path, '=' :: rest) =>
      match readValue fuel depth (skipBlank rest) with
      | none => none
      | some (v, rest) =>
        match skipBlank rest with
        | ',' :: rest => (readPairs fuel depth rest).map fun r => ((path, v) :: r.1, r.2)
        | '\x7d' :: rest => some ([(path, v)], rest)
        | _ => none
    | _ => none

end

/-- Where a value stands next, it is the first item. -/
theorem readItems_of_readValue {fuel depth : Nat} {s t rest : List Char} {v : Toml}
    (hs : skipLines s.length s = t) (ht : ∀ u, t ≠ ']' :: u)
    (h : readValue fuel depth t = some (v, rest)) :
    readItems (fuel + 1) depth s =
      match skipLines rest.length rest with
      | ',' :: rest => (readItems fuel depth rest).map fun r => (v :: r.1, r.2)
      | ']' :: rest => some ([v], rest)
      | _ => none := by
  rw [readItems, hs]
  split
  · exact absurd rfl (ht _)
  · rw [h]

/-- Read a pair of a key and a value on a line. -/
def readPair (s : List Char) : Option (Statement × List Char) :=
  match readKey s with
  | some (path, '=' :: rest) =>
    match readValue (2 * rest.length + 2) (nestingLimit - 1) (skipBlank rest) with
    | none => none
    | some (v, rest) => (readLineEnd rest).map fun rest => (.pair path v, rest)
  | _ => none

/-- Read a header on a line. -/
def readHeader : List Char → Option (Statement × List Char)
  | '[' :: '[' :: rest =>
    match readKey rest with
    | some (path, ']' :: ']' :: rest) =>
      (readLineEnd rest).map fun rest => (.arrayHeader path, rest)
    | _ => none
  | '[' :: rest =>
    match readKey rest with
    | some (path, ']' :: rest) => (readLineEnd rest).map fun rest => (.header path, rest)
    | _ => none
  | _ => none

/-- Read all statements of a text; the fuel bounds their number. -/
def readStatements : Nat → List Char → Option (List Statement)
  | 0, _ => none
  | fuel + 1, s =>
    match skipLines s.length s with
    | [] => some []
    | '[' :: rest =>
      (readHeader ('[' :: rest)).bind fun r =>
        (readStatements fuel r.2).map fun statements => r.1 :: statements
    | s =>
      (readPair s).bind fun r =>
        (readStatements fuel r.2).map fun statements => r.1 :: statements

/-- A text without the mark of its encoding. -/
def dropMark : List Char → List Char
  | c :: rest => if c.toNat = 0xFEFF then rest else c :: rest
  | [] => []

/-- Read a whole document. -/
def parse? (text : String) : Option Toml :=
  let s := dropMark text.toList
  (readStatements (s.length + 1) s).bind ofStatements

end Toml

end RuleGrounding
