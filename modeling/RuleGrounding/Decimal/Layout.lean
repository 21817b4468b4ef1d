import RuleGrounding.Decimal.Shortest

/-!
# Laying out a number as text

The digits of a number are chosen by `Decimal.shortest`; a layout says how they
are written. Each place where the library writes numbers has one layout value.
-/

namespace RuleGrounding

/-- The decisions of one format of floating-point numbers. -/
structure NumberLayout where
  /-- Whether a number whose leading digit stands at `10 ^ e` is written without an exponent. -/
  positional : Int → Bool
  /-- Whether a whole number written without an exponent ends in `.0`. -/
  wholeFraction : Bool
  /-- The sign in front of a positive exponent. -/
  plusSign : String
  /-- The choice between two equally close decimals. -/
  tie : Tie

namespace NumberLayout

/-- Digits with the decimal point behind the digit at `10 ^ 0`, zeros filling the gap. -/
def positionalText (wholeFraction : Bool) (digits : String) (lead : Int) : String :=
  if lead < 0 then
    "0." ++ "".pushn '0' (-lead - 1).toNat ++ digits
  else if (digits.length : Int) ≤ lead + 1 then
    digits ++ "".pushn '0' (lead.toNat + 1 - digits.length) ++ if wholeFraction then ".0" else ""
  else
    String.ofList (digits.toList.take (lead.toNat + 1)) ++ "." ++
      String.ofList (digits.toList.drop (lead.toNat + 1))

/-- Digits with the point behind the first one, and the exponent. -/
def scientificText (plusSign : String) (digits : String) (lead : Int) : String :=
  let fraction := digits.toList.drop 1
  String.ofList (digits.toList.take 1) ++
    (if fraction.isEmpty then "" else "." ++ String.ofList fraction) ++
    "e" ++ (if lead < 0 then "-" else plusSign) ++ toString lead.natAbs

/-- The text of a decimal. -/
def decimalText (layout : NumberLayout) (d : Decimal) : String :=
  let digits := toString d.digits
  let lead : Int := if d.digits = 0 then 0 else d.exponent + digits.length - 1
  (if d.negative then "-" else "") ++
    if layout.positional lead then positionalText layout.wholeFraction digits lead
    else scientificText layout.plusSign digits lead

/-- The text of a floating-point number: the fewest digits that read back, laid out. -/
def text (layout : NumberLayout) (x : Float) : String :=
  if x.isNaN then "NaN"
  else if x == Decimal.infinity then "inf"
  else if x == -Decimal.infinity then "-inf"
  else layout.decimalText (Decimal.shortest layout.tie x)

/-- In messages and rules every number is written out in full, a whole number without a point. -/
def plain : NumberLayout where
  positional _ := true
  wholeFraction := false
  plusSign := ""
  tie := .up

end NumberLayout

/-- The text of a number in messages, rules and answers. -/
def numberText (x : Float) : String := NumberLayout.plain.text x

end RuleGrounding
