import RuleGrounding.Decimal.Layout

/-!
# Writing TOML

Strings are written in the plainest form that holds them: on one line in double
quotes, on one line without escapes, over several lines in double quotes, over
several lines without escapes, and else with escapes.
-/

namespace RuleGrounding

namespace Toml

/-- In TOML text, numbers are written out in full and keep a point. -/
def layout : NumberLayout where
  positional _ := true
  wholeFraction := true
  plusSign := ""
  tie := .up

/-- A floating-point number. -/
def floatText (x : Float) : String := if x.isNaN then "nan" else layout.text x

/-- The length of the longest run of a character. -/
def longestRun (c : Char) (cs : List Char) : Nat :=
  (cs.foldl (fun (acc : Nat × Nat) d =>
    if d = c then (acc.1 + 1, Nat.max acc.2 (acc.1 + 1)) else (0, acc.2)) (0, 0)).2

/-- Whether a character can only be written as an escape, line ends apart. -/
def needsEscape (c : Char) : Bool :=
  c ≠ '\t' && c ≠ '\n' && (decide (c.toNat < 32) || decide (c.toNat = 127))

/-- A hexadecimal digit in upper case. -/
def hexDigit (n : Nat) : Char := if n < 10 then Char.ofNat (48 + n) else Char.ofNat (55 + n)

/-- How a character other than a double quote is written between double quotes. -/
def escapeChar (long : Bool) (c : Char) : List Char :=
  if c = '\\' then ['\\', '\\']
  else if c = '\n' then if long then ['\n'] else ['\\', 'n']
  else if c = '\r' then ['\\', 'r']
  else if c = '\t' then ['\\', 't']
  else if c.toNat = 8 then ['\\', 'b']
  else if c.toNat = 12 then ['\\', 'f']
  else if c.toNat < 32 ∨ c.toNat = 127 then
    ['\\', 'u', '0', '0', hexDigit (c.toNat / 16), hexDigit (c.toNat % 16)]
  else [c]

/-- The body of a string between double quotes. Over several lines, two double quotes in a row may
stand as they are; `run` counts those just written. -/
def escapeBody (long : Bool) (run : Nat) : List Char → List Char
  | [] => []
  | c :: rest =>
    if c = '"' then
      if long && decide (run < 2) then '"' :: escapeBody long (run + 1) rest
      else '\\' :: '"' :: escapeBody long 0 rest
    else escapeChar long c ++ escapeBody long 0 rest

/-- A string on one line in double quotes. -/
def basicText (cs : List Char) : List Char := '"' :: escapeBody false 0 cs ++ ['"']

/-- The line end behind the opening quotes of a string that has line ends. -/
def openingNewline (cs : List Char) : List Char := if '\n' ∈ cs then ['\n'] else []

/-- A string over several lines in double quotes. -/
def longBasicText (cs : List Char) : List Char :=
  ['"', '"', '"'] ++ openingNewline cs ++ escapeBody true 0 cs ++ ['"', '"', '"']

/-- A string on one line without escapes. -/
def literalText (cs : List Char) : List Char := '\'' :: cs ++ ['\'']

/-- A string over several lines without escapes. -/
def longLiteralText (cs : List Char) : List Char :=
  ['\'', '\'', '\''] ++ openingNewline cs ++ cs ++ ['\'', '\'', '\'']

/-- The characters of a string in the plainest form that holds it. -/
def quoteChars (cs : List Char) : List Char :=
  let escapes := cs.any needsEscape
  let backslash := decide ('\\' ∈ cs)
  let newline := decide ('\n' ∈ cs)
  if !escapes && !backslash && decide ('"' ∉ cs) && !newline then basicText cs
  else if !escapes && decide ('\'' ∉ cs) && !newline then literalText cs
  else if !escapes && !backslash && decide (longestRun '"' cs ≤ 2) then longBasicText cs
  else if !escapes && decide (longestRun '\'' cs ≤ 2) then longLiteralText cs
  else if newline then longBasicText cs
  else basicText cs

/-- A string with its quotes. -/
def quote (s : String) : String := String.ofList (quoteChars s.toList)

/-- An array of strings; several stand on a line each. -/
def stringsText (items : List String) : String :=
  if items.length ≤ 1 then "[" ++ String.intercalate ", " (items.map quote) ++ "]"
  else "[\n" ++ String.join (items.map fun s => "    " ++ quote s ++ ",\n") ++ "]"

end Toml

end RuleGrounding
