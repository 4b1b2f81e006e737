import DeskCalculator.Decimal.Rounding
import DeskCalculator.Text

/-!
# Numerals

The written forms of a decimal: the form that is read, the full form that reads
back to the same decimal, and the short form shown on a display.
-/

set_option autoImplicit false

namespace DeskCalculator.Decimal

def readWord? (t : Text) : Option Int :=
  let (negative, digits) := match t with
    | '-' :: rest => (true, rest)
    | '+' :: rest => (false, rest)
    | _ => (false, t)
  if digits.isEmpty || !digits.all Char.isDigit then none
  else
    let magnitude : Int := Nat.ofDigitChars 10 digits 0
    let n := if negative then -magnitude else magnitude
    if FitsWord n then some n else none

def isExponentMark (c : Char) : Bool := c = 'e' || c = 'E'

def readExponent? : Text → Option Int
  | [] => some 0
  | _ :: digits => readWord? digits

/-- Reads `[+-]digits[.digits][e[+-]digits]` between blanks, with a digit on at least
one side of the point, and goes on with the number. -/
def readThen {α : Type} (t : Text) (next : Decimal → Option α) : Option α := do
  let trimmed := t.trim
  let (negative, body) := match trimmed with
    | '-' :: rest => (true, rest)
    | '+' :: rest => (false, rest)
    | _ => (false, trimmed)
  let exponent ← readExponent? (body.dropWhile (!isExponentMark ·))
  let digits := body.takeWhile (!isExponentMark ·)
  let whole := digits.takeWhile (· ≠ '.')
  let fraction := (digits.dropWhile (· ≠ '.')).drop 1
  let all := whole ++ fraction
  guard (!all.isEmpty && all.all Char.isDigit)
  let scaled := exponent - fraction.length
  guard (FitsWord scaled)
  let magnitude : Int := Nat.ofDigitChars 10 all 0
  next (ofScaled (if negative then -magnitude else magnitude) scaled)

/-- A value above the range is refused; one below it is zero. -/
def read? (t : Text) : Option Decimal := readThen t bounded?

/-- Whether the place of the leading digit is counted in 64 bits while a numeral is read. -/
def readsInWords (t : Text) : Bool :=
  (readThen t fun x => some (decide (x.mantissa = 0 ∨ FitsWord (x.exponent + x.length)))).getD true

def digitText (x : Decimal) : Text := Nat.toDigits 10 x.mantissa.natAbs

def signText (x : Decimal) : Text := if x.isNegative then ['-'] else []

def integerText (n : Int) : Text :=
  (if n < 0 then ['-'] else []) ++ Nat.toDigits 10 n.natAbs

def zeros (n : Nat) : Text := List.replicate n '0'

def maxZeros : Nat := 1000

/-- The full form: positional, except where that would take more than `maxZeros` zeros. -/
def write (x : Decimal) : Text :=
  let digits := x.digitText
  x.signText ++
    if 0 ≤ x.exponent then
      if (maxZeros : Int) < x.exponent then digits ++ ['e', '+'] ++ integerText x.exponent
      else digits ++ zeros x.exponent.toNat
    else
      let places := (-x.exponent).toNat
      if digits.length + maxZeros < places then digits ++ ['e'] ++ integerText x.exponent
      else if places < digits.length then
        digits.take (digits.length - places) ++ ['.'] ++ digits.drop (digits.length - places)
      else ['0', '.'] ++ zeros (places - digits.length) ++ digits

def displayDigits : Nat := 12

/-- The short form: rounded, and positional for a leading digit between `10 ^ -7` and
`10 ^ 20`; otherwise one digit before the point and an exponent with its sign. -/
def short (x : Decimal) (digits : Nat) : Text :=
  let rounded := x.round digits
  let e := rounded.adjusted
  if rounded.isZero then ['0']
  else if -7 ≤ e ∧ e < 21 then rounded.write
  else
    let all := rounded.digitText
    let fraction := all.drop 1
    rounded.signText ++ all.take 1 ++ (if fraction.isEmpty then [] else '.' :: fraction) ++
      ['e', if e < 0 then '-' else '+'] ++ Nat.toDigits 10 e.natAbs

end DeskCalculator.Decimal
