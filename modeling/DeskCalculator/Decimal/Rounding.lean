import DeskCalculator.Decimal.Basic
import DeskCalculator.FixedPoint.Constants

/-!
# Rounding and range

A result is rounded to a number of significant digits, a half going to the even
neighbour, and then held to the representable range: above it there is no
result, below it the result is zero. A context says how many digits to keep and
which digits of the constants are already known.
-/

set_option autoImplicit false

namespace DeskCalculator

open DeskCalculator.Natural DeskCalculator.FixedPoint

structure Context where
  digits : Nat
  positive : 0 < digits
  /-- Digits of the constants computed earlier. -/
  known : Constants := {}

namespace Context

def ofDigits (digits : Nat) : Context where
  digits := max digits 1
  positive := Nat.lt_of_lt_of_le (by decide) (Nat.le_max_right digits 1)

def withDigits (c : Context) (digits : Nat) : Context :=
  { ofDigits digits with known := c.known }

def widen (c : Context) (extra : Nat) : Context := c.withDigits (c.digits + extra)

def knowing (c : Context) (known : Constants) : Context := { c with known := known }

end Context

def Natural.halfEven (n d : Nat) : Nat :=
  let quotient := n / d
  let twice := 2 * (n % d)
  if d < twice then quotient + 1
  else if twice = d ∧ quotient % 2 = 1 then quotient + 1
  else quotient

namespace Decimal

def round (x : Decimal) (digits : Nat) : Decimal :=
  let kept := max digits 1
  if x.length ≤ kept then x
  else
    let removed := x.length - kept
    let magnitude : Int := halfEven x.mantissa.natAbs (tens removed)
    ofScaled (if x.isNegative then -magnitude else magnitude) (x.exponent + removed)

def maxAdjusted : Int := 9000000000000000

def InRange (x : Decimal) : Prop :=
  x.mantissa = 0 ∨ -maxAdjusted ≤ x.adjusted ∧ x.adjusted ≤ maxAdjusted

instance (x : Decimal) : Decidable x.InRange := inferInstanceAs (Decidable (_ ∨ _))

/-- No result above the range, zero below it. -/
def bounded? (x : Decimal) : Option Decimal :=
  if x.InRange then some x
  else if maxAdjusted < x.adjusted then none
  else some zero

/-- The result of an operation whose exact or amply precise value is `m * 10 ^ e`. -/
def finish (m e : Int) (c : Context) : Option Decimal :=
  ((ofScaled m e).round c.digits).bounded?

def guardDigits : Nat := 10

/-- An integer that stands for `q` and something more: a last digit one below the
place where rounding looks. -/
def witness (q : Nat) : Nat := q * 10 + 1

end Decimal

end DeskCalculator
