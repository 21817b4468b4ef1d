/-!
# Decimal numbers and binary floating point

A decimal is a sign, a natural number of digits and a power of ten. Reading one
gives the nearest binary number. In the other direction a finite binary number
is an integer times a power of two, which is an exact decimal as well.
-/

namespace RuleGrounding

/-- The number `± digits · 10 ^ exponent`. -/
structure Decimal where
  /-- Whether the number carries a minus sign; zero may carry one too. -/
  negative : Bool
  /-- The digits, read as one natural number. -/
  digits : Nat
  /-- The power of ten by which the digits are scaled. -/
  exponent : Int
  deriving DecidableEq, Repr

namespace Decimal

/-- Positive infinity. -/
def infinity : Float := 1.0 / 0.0

/-- The nearest binary number to `digits · 10 ^ exponent`, ties to even. Exponents far outside
the range of binary numbers are settled by their size alone. -/
def magnitude (digits : Nat) (exponent : Int) : Float :=
  if digits = 0 then 0.0
  else if 400 < exponent then infinity
  else if exponent < -(400 + digits.log2 : Int) then 0.0
  else Float.ofModel (Float.Model.ofScientific digits exponent)

/-- The nearest binary number, with the decimal's sign. -/
def toFloat (d : Decimal) : Float :=
  if d.negative then -magnitude d.digits d.exponent else magnitude d.digits d.exponent

/-- Move trailing zeros of the digits into the exponent, at most `fuel` of them. -/
def stripZeros : Nat → Nat → Int → Nat × Int
  | 0, n, e => (n, e)
  | fuel + 1, n, e =>
    if n ≠ 0 ∧ n % 10 = 0 then stripZeros fuel (n / 10) (e + 1) else (n, e)

/-- The decimal without trailing zeros among its digits; a zero is scaled by no power of ten. -/
def normalize (d : Decimal) : Decimal :=
  if d.digits = 0 then { d with exponent := 0 }
  else
    let r := stripZeros d.digits.log2 d.digits d.exponent
    { d with digits := r.1, exponent := r.2 }

end Decimal

/-- The magnitude `mantissa · 2 ^ exponent` of a finite binary number. -/
structure Dyadic where
  /-- The integer significand. -/
  mantissa : Nat
  /-- The power of two by which the significand is scaled. -/
  exponent : Int
  deriving DecidableEq, Repr

namespace Dyadic

/-- The magnitude that the bits of a finite binary number encode. -/
def ofBits (bits : UInt64) : Dyadic :=
  let field : Nat := bits.toNat / Nat.pow 2 52 % Nat.pow 2 11
  let fraction : Nat := bits.toNat % Nat.pow 2 52
  if field = 0 then ⟨fraction, -1074⟩ else ⟨fraction + Nat.pow 2 52, (field : Int) - 1075⟩

/-- The magnitude divided by `10 ^ p`, as a numerator and a denominator. -/
def ratio (b : Dyadic) (p : Int) : Nat × Nat :=
  (b.mantissa * Nat.pow 2 b.exponent.toNat * Nat.pow 10 (-p).toNat,
    Nat.pow 2 (-b.exponent).toNat * Nat.pow 10 p.toNat)

/-- The exponent of the leading decimal digit of a non-zero magnitude. The logarithm of two is
taken as `0.30103`, which is close enough to be off by at most one over the range of binary
numbers; the comparison with the next power of ten settles it. -/
def leadingExponent (b : Dyadic) : Int :=
  let estimate := Int.fdiv (((b.mantissa.log2 : Int) + b.exponent) * 30103) 100000
  let above := b.ratio (estimate + 1)
  if above.2 ≤ above.1 then estimate + 1 else estimate

/-- The magnitude written out exactly as a decimal. -/
def toDecimal (b : Dyadic) : Decimal :=
  ⟨false, b.mantissa * Nat.pow 2 b.exponent.toNat * Nat.pow 5 (-b.exponent).toNat,
    -((-b.exponent).toNat : Int)⟩

end Dyadic

end RuleGrounding
