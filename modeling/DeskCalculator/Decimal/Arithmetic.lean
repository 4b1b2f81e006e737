import DeskCalculator.Decimal.Rounding
import DeskCalculator.Natural.Root

/-!
# The four operations and the remainder

Every operation works on exact integers and rounds once. Where the exact value
would be unreasonably long, a nonzero tail is replaced by a single digit below
the rounding position, which has the same effect on the rounding.
-/

set_option autoImplicit false

namespace DeskCalculator.Decimal

open DeskCalculator.Natural

/-- `x` as a term of a sum with `y`: when it lies wholly below the digits that the
sum keeps, a single unit of its sign just under them. -/
def besides (x y : Decimal) (c : Context) : Decimal :=
  let threshold := y.adjusted - c.digits - 2
  if threshold ≤ x.adjusted then x
  else
    let e := min y.exponent threshold - 1
    if x.isNegative then ⟨-1, e, Or.inr (by decide)⟩ else ⟨1, e, Or.inr (by decide)⟩

def aligned (a b : Decimal) (c : Context) : Option Decimal :=
  let e := min a.exponent b.exponent
  finish (a.mantissa * powerOfTen (a.exponent - e).toNat
    + b.mantissa * powerOfTen (b.exponent - e).toNat) e c

def add (x y : Decimal) (c : Context) : Option Decimal :=
  if y.isZero then (x.round c.digits).bounded?
  else if x.isZero then (y.round c.digits).bounded?
  else aligned (x.besides y c) (y.besides x c) c

def sub (x y : Decimal) (c : Context) : Option Decimal := x.add (-y) c

def mul (x y : Decimal) (c : Context) : Option Decimal :=
  finish (x.mantissa * y.mantissa) (x.exponent + y.exponent) c

/-- The quotient; there is none by zero. The dividend is lengthened until the
integer quotient has two digits more than are kept. -/
def div (x y : Decimal) (c : Context) : Option Decimal :=
  if y.isZero then none
  else if x.isZero then some zero
  else
    let shift := c.digits + 2 + y.length - x.length
    let numerator := x.mantissa.natAbs * powerOfTen shift
    let denominator := y.mantissa.natAbs
    let quotient := numerator / denominator
    let e := x.exponent - y.exponent - shift
    let sign : Int := if x.isNegative = y.isNegative then 1 else -1
    if numerator % denominator = 0 then finish (sign * quotient) e c
    else finish (sign * witness quotient) (e - 1) c

/-- The remainder of truncating division, with the sign of `x`; there is none by
zero. A dividend of much larger exponent is reduced by a modular power of ten. -/
def rem (x y : Decimal) (c : Context) : Option Decimal :=
  if y.isZero then none
  else if x.abs.cmp y.abs = .lt then (x.round c.digits).bounded?
  else
    let a := x.mantissa.natAbs
    let b := y.mantissa.natAbs
    let sign : Int := if x.isNegative then -1 else 1
    if y.exponent ≤ x.exponent then
      let power := powMod 10 (x.exponent - y.exponent).toNat b
      finish (sign * ((a * power % b : Nat) : Int)) y.exponent c
    else
      let gap := (y.exponent - x.exponent).toNat
      finish (sign * ((a % (b * tens gap) : Nat) : Int)) x.exponent c

end DeskCalculator.Decimal
