import RuleGrounding.GroundAtom
import RuleGrounding.Text.Unprintable

/-!
# Ground atoms in full

A ground atom with value and state on one line, its text in quotes.
-/

namespace RuleGrounding

namespace Quoted

/-- A number in hexadecimal digits without zeros in front. -/
def hexText (n : Nat) : String := String.ofList (Nat.toDigits 16 n)

/-- How a character is written between double quotes: quotes, backslashes and whatever is not
shown as it is are escaped. -/
def escapeChar (c : Char) : String :=
  if c = '"' then "\\\""
  else if c = '\\' then "\\\\"
  else if c = '\n' then "\\n"
  else if c = '\r' then "\\r"
  else if c = '\t' then "\\t"
  else if c.toNat = 0 then "\\0"
  else if Unprintable.contains c then "\\u\x7b" ++ hexText c.toNat ++ "\x7d"
  else c.toString

/-- A text in double quotes. -/
def quote (s : String) : String := "\"" ++ String.join (s.toList.map escapeChar) ++ "\""

end Quoted

namespace AtomState

/-- The state in full. -/
def detail : AtomState → String
  | observed p => s!"Observed(PartitionId({p.number}))"
  | unobserved p => s!"Unobserved(PartitionId({p.number}))"
  | lazy => "Lazy"
  | computed => "Computed"

end AtomState

namespace GroundAtom

/-- In full descriptions, numbers from `10 ^ -4` to below `10 ^ 16` are positional and keep a
point. -/
def layout : NumberLayout where
  positional e := decide (-4 ≤ e) && decide (e < 16)
  wholeFraction := true
  plusSign := ""
  tie := .up

/-- The atom in full. -/
def detail (a : GroundAtom) : String :=
  "GroundAtom \x7b atom: " ++ Quoted.quote a.key.toText ++ ", value: " ++ layout.text a.value ++
    ", state: " ++ a.state.detail ++ " \x7d"

end GroundAtom

end RuleGrounding
