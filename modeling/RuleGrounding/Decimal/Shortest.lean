import RuleGrounding.Decimal

/-!
# The fewest digits that read back

Among the decimals that read back to a given binary number, the ones with the
fewest digits are considered, and of those the one closest to the number. On the
grid of `n`-digit decimals only the two neighbours of the number can be closest,
so it is enough to try these two for `n = 1, 2, …, 17`.
-/

namespace RuleGrounding

/-- Which of two equally close decimals is taken. -/
inductive Tie where
  /-- The one with the even last digit. -/
  | toEven
  /-- The larger one. -/
  | up
  deriving DecidableEq, Repr

namespace Decimal

/-- Whether a decimal reads back as the binary number `x`. -/
def readsBack (x : Float) (d : Decimal) : Bool := d.toFloat.toBits == x.toBits

/-- The two neighbours of a magnitude on the grid of multiples of `10 ^ p`, the closer one first. -/
def neighbours (tie : Tie) (b : Dyadic) (p : Int) : List Nat :=
  let r := b.ratio p
  let below := r.1 / r.2
  let rest := r.1 % r.2
  if rest = 0 then [below]
  else
    match compare (2 * rest) r.2, tie with
    | .lt, _ => [below, below + 1]
    | .gt, _ => [below + 1, below]
    | .eq, .up => [below + 1, below]
    | .eq, .toEven => if below % 2 = 0 then [below, below + 1] else [below + 1, below]

/-- The closest decimal of `n` digits that reads back as `x`, if there is one. -/
def ofDigitCount (tie : Tie) (x : Float) (b : Dyadic) (lead : Int) (n : Nat) : Option Decimal :=
  let p := lead - n + 1
  ((neighbours tie b p).map fun digits => normalize ⟨false, digits, p⟩).find? (readsBack x)

/-- The decimal with the fewest digits that reads back as the positive finite number `x`. Seventeen
digits always suffice; the exact decimal stands behind them so that the function is total. -/
def shortestPositive (tie : Tie) (x : Float) : Decimal :=
  let b := Dyadic.ofBits x.toBits
  let lead := b.leadingExponent
  ((List.range 17).findSome? fun n => ofDigitCount tie x b lead (n + 1)).getD
    (normalize b.toDecimal)

/-- The decimal with the fewest digits that reads back as the finite number `x`. -/
def shortest (tie : Tie) (x : Float) : Decimal :=
  let negative := decide (Nat.pow 2 63 ≤ x.toBits.toNat)
  if x == 0.0 then ⟨negative, 0, 0⟩
  else { shortestPositive tie x.abs with negative }

/-- A decimal found on the grid of `n` digits reads back. -/
theorem readsBack_of_ofDigitCount {tie : Tie} {x : Float} {b : Dyadic} {lead : Int} {n : Nat}
    {d : Decimal} (h : ofDigitCount tie x b lead n = some d) : readsBack x d = true := by
  unfold ofDigitCount at h
  exact List.find?_some h

end Decimal

end RuleGrounding
