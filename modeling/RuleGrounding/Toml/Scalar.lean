import RuleGrounding.Json.Reader
import RuleGrounding.Toml

/-!
# TOML scalars

Numbers, truth values, dates and times, each from the whole of its text.
-/

namespace RuleGrounding

namespace Toml

/-- Whether a text is digits with single underscores between them. -/
def isDigitRun (isDigit : Char → Bool) : List Char → Bool
  | [] => false
  | [c] => isDigit c
  | c :: '_' :: rest => isDigit c && isDigitRun isDigit rest
  | c :: rest => isDigit c && isDigitRun isDigit rest

/-- Whether a text is a decimal number without superfluous zeros in front. -/
def isWhole (cs : List Char) : Bool :=
  isDigitRun Char.isDigit cs && (cs.head? ≠ some '0' || cs.length = 1)

/-- The sign of a number and the text behind it. -/
def splitSign : List Char → Bool × List Char
  | '+' :: rest => (false, rest)
  | '-' :: rest => (true, rest)
  | rest => (false, rest)

/-- The number that digits of a base write, underscores passed over. -/
def baseValue (base : Nat) (cs : List Char) : Nat :=
  cs.foldl (fun acc c =>
    match Json.hexValue? c with
    | some d => base * acc + d
    | none => acc) 0

/-- The digits of a base up to sixteen. -/
def isBaseDigit (base : Nat) (c : Char) : Bool := (Json.hexValue? c).any fun d => decide (d < base)

/-- The integer value, if it fits 64 bits. -/
def integer64? (n : Int) : Option Toml :=
  if -Int.pow 2 63 ≤ n ∧ n < Int.pow 2 63 then some (.integer n) else none

/-- An unsigned integer of a base, given its digits. -/
def baseInteger? (base : Nat) (digits : List Char) : Option Toml :=
  if isDigitRun (isBaseDigit base) digits then integer64? (baseValue base digits) else none

/-- The integer that a text writes, with its base in front or in decimal. -/
def integer? (cs : List Char) : Option Toml :=
  match cs with
  | '0' :: 'x' :: digits => baseInteger? 16 digits
  | '0' :: 'o' :: digits => baseInteger? 8 digits
  | '0' :: 'b' :: digits => baseInteger? 2 digits
  | _ =>
    let (negative, digits) := splitSign cs
    if isWhole digits then
      let n : Int := baseValue 10 digits
      integer64? (if negative then -n else n)
    else none

/-- Split a text at the first character of a kind. -/
def splitAtFirst (p : Char → Bool) (cs : List Char) : List Char × Option (List Char) :=
  match cs.dropWhile fun c => !p c with
  | [] => (cs, none)
  | _ :: rest => (cs.takeWhile fun c => !p c, some rest)

/-- The exponent that a text behind its mark writes; without a mark it is zero. -/
def exponent? : Option (List Char) → Option Int
  | none => some 0
  | some cs =>
    let (negative, digits) := splitSign cs
    if isDigitRun Char.isDigit digits then
      let n : Int := baseValue 10 digits
      some (if negative then -n else n)
    else none

/-- The digits of a fraction behind its point; without a point there are none. -/
def fraction? : Option (List Char) → Option (List Char)
  | none => some []
  | some cs => if isDigitRun Char.isDigit cs then some (cs.filter Char.isDigit) else none

/-- The floating-point number that a decimal with a fraction or an exponent writes. A positive one
must not be too large. -/
def decimalFloat? (cs : List Char) : Option Toml :=
  let (negative, cs) := splitSign cs
  let (significand, exponentText) := splitAtFirst (fun c => c = 'e' || c = 'E') cs
  let (whole, fractionText) := splitAtFirst (fun c => c = '.') significand
  if exponentText.isNone && fractionText.isNone then none
  else if isWhole whole then
    match fraction? fractionText, exponent? exponentText with
    | some fraction, some exponent =>
      let x := Decimal.toFloat
        ⟨negative, baseValue 10 (whole ++ fraction), exponent - fraction.length⟩
      if x == Decimal.infinity then none else some (.float x)
    | _, _ => none
  else none

/-- The special floating-point numbers. -/
def specialFloat? (cs : List Char) : Option Toml :=
  let (negative, name) := splitSign cs
  if name = ['i', 'n', 'f'] then
    some (.float (if negative then -Decimal.infinity else Decimal.infinity))
  else if name = ['n', 'a', 'n'] then some (.float (0.0 / 0.0))
  else none

/-- The value of a word: a truth value or a number. -/
def word? (cs : List Char) : Option Toml :=
  if cs = ['t', 'r', 'u', 'e'] then some (.bool true)
  else if cs = ['f', 'a', 'l', 's', 'e'] then some (.bool false)
  else specialFloat? cs <|> decimalFloat? cs <|> integer? cs

/-- Read two digits that write a number between two bounds. -/
def readTwo (lo hi : Nat) : List Char → Option (Nat × List Char)
  | a :: b :: rest =>
    if a.isDigit && b.isDigit then
      let n := baseValue 10 [a, b]
      if lo ≤ n ∧ n ≤ hi then some (n, rest) else none
    else none
  | _ => none

/-- Read one given character. -/
def readChar (c : Char) : List Char → Option (List Char)
  | d :: rest => if d = c then some rest else none
  | [] => none

/-- Read the fraction of a second, if there is one. -/
def readSecondFraction (s : List Char) : Option (List Char) :=
  match s with
  | '.' :: rest =>
    if (rest.takeWhile Char.isDigit).isEmpty then none else some (rest.dropWhile Char.isDigit)
  | _ => some s

/-- Read a time of day. -/
def readTime (s : List Char) : Option (List Char) := do
  let (_, s) ← readTwo 0 23 s
  let s ← readChar ':' s
  let (_, s) ← readTwo 0 59 s
  let s ← readChar ':' s
  let (_, s) ← readTwo 0 60 s
  readSecondFraction s

/-- Read an offset from universal time, if there is one. -/
def readOffset (s : List Char) : Option (List Char) :=
  match s with
  | [] => some []
  | c :: rest =>
    if c = 'Z' || c = 'z' then some rest
    else if c = '+' || c = '-' then do
      let (_, s) ← readTwo 0 23 rest
      let s ← readChar ':' s
      let (_, s) ← readTwo 0 59 s
      pure s
    else some s

/-- The number of days of a month. -/
def daysIn (year month : Nat) : Nat :=
  if month = 2 then
    if year % 4 = 0 ∧ (year % 100 ≠ 0 ∨ year % 400 = 0) then 29 else 28
  else if month = 4 ∨ month = 6 ∨ month = 9 ∨ month = 11 then 30
  else 31

/-- Read a date. -/
def readDate (s : List Char) : Option (List Char) := do
  let (high, s) ← readTwo 0 99 s
  let (low, s) ← readTwo 0 99 s
  let s ← readChar '-' s
  let (month, s) ← readTwo 1 12 s
  let s ← readChar '-' s
  let (_, s) ← readTwo 1 (daysIn (100 * high + low) month) s
  pure s

/-- Read a date with the time that may follow it, or a time. -/
def readDateTime (s : List Char) : Option (List Char) :=
  match readDate s with
  | none => readTime s
  | some rest =>
    match rest with
    | c :: behind =>
      if c = 'T' || c = 't' || c = ' ' then
        match readTime behind with
        | some s => readOffset s
        | none => some rest
      else some rest
    | [] => some []

end Toml

end RuleGrounding
