import RuleGrounding.Json

/-!
# Writing JSON

JSON text on one line without blanks, or over several lines with two blanks for
each level.
-/

namespace RuleGrounding

namespace Json

/-- A hexadecimal digit in lower case. -/
def hexDigit (n : Nat) : Char := if n < 10 then Char.ofNat (48 + n) else Char.ofNat (87 + n)

/-- How a character is written in a string: quotes, backslashes and control characters are
escaped. -/
def escapeChar (c : Char) : List Char :=
  if c = '"' then ['\\', '"']
  else if c = '\\' then ['\\', '\\']
  else if c = '\n' then ['\\', 'n']
  else if c = '\r' then ['\\', 'r']
  else if c = '\t' then ['\\', 't']
  else if c.toNat = 8 then ['\\', 'b']
  else if c.toNat = 12 then ['\\', 'f']
  else if c.toNat < 32 then
    ['\\', 'u', '0', '0', hexDigit (c.toNat / 16), hexDigit (c.toNat % 16)]
  else [c]

/-- A string in quotes. -/
def quote (s : String) : String :=
  "\"" ++ String.ofList (s.toList.flatMap escapeChar) ++ "\""

mutual

/-- The value on one line. -/
def compact : Json → String
  | null => "null"
  | bool true => "true"
  | bool false => "false"
  | integer n => toString n
  | real d => layout.decimalText d
  | string s => quote s
  | array items => "[" ++ String.intercalate "," (compactItems items) ++ "]"
  | object fields => "\x7b" ++ String.intercalate "," (compactFields fields) ++ "\x7d"

/-- Several values on one line each. -/
def compactItems : List Json → List String
  | [] => []
  | j :: js => compact j :: compactItems js

/-- Several fields on one line each. -/
def compactFields : List (String × Json) → List String
  | [] => []
  | (name, j) :: rest => (quote name ++ ":" ++ compact j) :: compactFields rest

end

/-- The start of a line at a level. -/
def lineStart (level : Nat) : String := "\n" ++ "".pushn ' ' (2 * level)

/-- Parts between brackets, each on a line of its own; without parts the brackets stand together. -/
def bracketed (level : Nat) (opening closing : String) (parts : List String) : String :=
  if parts.isEmpty then opening ++ closing
  else
    opening ++ lineStart (level + 1) ++
      String.intercalate ("," ++ lineStart (level + 1)) parts ++ lineStart level ++ closing

mutual

/-- The value over several lines, at a level. -/
def prettyAt (level : Nat) : Json → String
  | array items => bracketed level "[" "]" (prettyItems (level + 1) items)
  | object fields => bracketed level "\x7b" "\x7d" (prettyFields (level + 1) fields)
  | null => "null"
  | bool true => "true"
  | bool false => "false"
  | integer n => toString n
  | real d => layout.decimalText d
  | string s => quote s

/-- Several values at a level. -/
def prettyItems (level : Nat) : List Json → List String
  | [] => []
  | j :: js => prettyAt level j :: prettyItems level js

/-- Several fields at a level. -/
def prettyFields (level : Nat) : List (String × Json) → List String
  | [] => []
  | (name, j) :: rest => (quote name ++ ": " ++ prettyAt level j) :: prettyFields level rest

end

theorem prettyItems_eq_map (level : Nat) (js : List Json) :
    prettyItems level js = js.map (prettyAt level) := by
  induction js with
  | nil => rw [prettyItems, List.map_nil]
  | cons j js ih => rw [prettyItems, ih, List.map_cons]

theorem prettyFields_eq_map (level : Nat) (fs : List (String × Json)) :
    prettyFields level fs = fs.map fun f => quote f.1 ++ ": " ++ prettyAt level f.2 := by
  induction fs with
  | nil => rw [prettyFields, List.map_nil]
  | cons f fs ih => rw [prettyFields, ih, List.map_cons]

theorem prettyAt_array (level : Nat) (js : List Json) :
    prettyAt level (.array js) = bracketed level "[" "]" (js.map (prettyAt (level + 1))) := by
  rw [prettyAt, prettyItems_eq_map]

theorem prettyAt_object (level : Nat) (fs : List (String × Json)) :
    prettyAt level (.object fs) = bracketed level "\x7b" "\x7d"
      (fs.map fun f => quote f.1 ++ ": " ++ prettyAt (level + 1) f.2) := by
  rw [prettyAt, prettyFields_eq_map]

/-- The value over several lines. -/
def pretty (j : Json) : String := prettyAt 0 j

end Json

end RuleGrounding
