import DeskCalculator.Decimal.Arithmetic
import DeskCalculator.FixedPoint.Exponential

/-!
# Exponential, logarithms, powers and roots

The transcendental functions are computed on scaled integers with guard digits
and rounded once. Integer powers up to a bound and roots are exact before that
rounding.
-/

set_option autoImplicit false

namespace DeskCalculator.Decimal

open DeskCalculator.Natural DeskCalculator.FixedPoint

/-- The exponential. From `10 ^ 17` on it lies outside the range whatever the
digits are. Below, `x = k ln 10 + r` and `10 ^ k` only moves the exponent. -/
def exp (x : Decimal) (c : Context) : Option Decimal :=
  if x.isZero then some one
  else if 17 ≤ x.adjusted then
    if x.isNegative then some zero else none
  else
    let whole := x.integerDigits
    let w := c.digits + guardDigits
    let scaled := x.toScaled (w + whole)
    let ln10 := c.known.ln10Digits (w + whole)
    let towardZero := scaled.tdiv ln10
    let k := if scaled - towardZero * ln10 < 0 then towardZero - 1 else towardZero
    let rest := (scaled - k * ln10).tdiv (tens whole)
    if FitsWord k then finish (FixedPoint.exp rest w) (k - w) c else none

def logarithmDigits (x : Decimal) (c : Context) : Nat :=
  c.digits + guardDigits + digitCount x.adjusted.natAbs

def ln (x : Decimal) (c : Context) : Option Decimal :=
  if x.mantissa ≤ 0 then none
  else if x = one then some zero
  else
    let w := x.logarithmDigits c
    let ofSignificand := FixedPoint.ln (x.significand.toScaled w).toNat w
    let ofExponent := if x.adjusted = 0 then 0 else c.known.ln10Digits w * x.adjusted
    finish (ofSignificand + ofExponent) (-w) c

def log10 (x : Decimal) (c : Context) : Option Decimal :=
  if x.mantissa ≤ 0 then none
  else if x.significand = one then ((ofInt x.adjusted).round c.digits).bounded?
  else
    let w := x.logarithmDigits c
    let scale : Int := powerOfTen w
    let ofSignificand := FixedPoint.ln (x.significand.toScaled w).toNat w
    finish ((ofSignificand * scale).tdiv (c.known.ln10Digits w) + x.adjusted * scale) (-w) c

def e (c : Context) : Decimal :=
  let w := c.digits + guardDigits
  (ofScaled (FixedPoint.exp (powerOfTen w) w) (-w)).round c.digits

/-! ### Powers -/

def maxExactPower : Nat := 1024

def squareAndMultiply (c : Context) (n : Nat) (base acc : Decimal) : Option Decimal :=
  if n = 0 then some acc
  else
    match if n % 2 = 1 then acc.mul base c else some acc with
    | none => none
    | some acc =>
      if n / 2 = 0 then some acc
      else
        match base.mul base c with
        | none => none
        | some square => squareAndMultiply c (n / 2) square acc

/-- `x ^ k` for a natural `k`: exact up to `maxExactPower`, and with guard digits above. -/
def naturalPower (x : Decimal) (k : Nat) (c : Context) : Option Decimal :=
  if k ≤ maxExactPower then (ofScaled (x.mantissa.pow k) (x.exponent * k)).bounded?
  else squareAndMultiply (c.widen (guardDigits + digitCount k)) k x one

def integerPower (x : Decimal) (n : Int) (c : Context) : Option Decimal :=
  match x.naturalPower n.natAbs c with
  | none => none
  | some p => if n < 0 then one.div p c else (p.round c.digits).bounded?

/-- `x ^ y` for positive `x`, as the exponential of `y ln x`. The logarithm is taken
again with as many further digits as `y ln x` has before its point. -/
def powerOfPositive (x y : Decimal) (c : Context) : Option Decimal := do
  let guarded := guardDigits + 5
  let rough ← y.mul (← x.ln (c.widen guarded)) (c.widen guarded)
  if 17 ≤ rough.adjusted then rough.exp c
  else
    let whole := rough.integerDigits
    let t ←
      if 0 < whole then
        let wider := c.widen (guarded + whole)
        y.mul (← x.ln wider) wider
      else some rough
    let power ← t.exp (c.widen guardDigits)
    return power.round c.digits

/-- `x ^ y`. A negative base needs an integer power, whose parity decides the sign. -/
def pow (x y : Decimal) (c : Context) : Option Decimal :=
  if y.isZero then some one
  else if x.isZero then
    if y.isNegative then none else some zero
  else
    match y.toWord? with
    | some n => x.integerPower n c
    | none =>
      if x.isNegative then
        if y.isInteger then
          (x.abs.powerOfPositive y c).map fun p => if y.isEven then p else -p
        else none
      else x.powerOfPositive y c

/-! ### Roots -/

def maxRootOrder : Nat := 64

/-- The least shift from `start` on that makes `exponent - shift` a multiple of `k`. -/
def alignedShift (exponent : Int) (k start : Nat) : Nat :=
  start + ((exponent - start) % k).toNat

def root (x : Decimal) (k : Nat) (c : Context) : Option Decimal :=
  if k = 0 ∨ maxRootOrder < k ∨ (x.isNegative ∧ k % 2 = 0) then none
  else if x.isZero then some zero
  else
    let shift := alignedShift x.exponent k (k * (c.digits + 3) - x.length)
    let radicand := x.mantissa.natAbs * powerOfTen shift
    let r := floorRoot k radicand
    let e := (x.exponent - shift) / k
    let sign : Int := if x.isNegative then -1 else 1
    if Nat.pow r k = radicand then finish (sign * r) e c
    else finish (sign * witness r) (e - 1) c

def sqrt (x : Decimal) (c : Context) : Option Decimal := x.root 2 c

def cbrt (x : Decimal) (c : Context) : Option Decimal := x.root 3 c

end DeskCalculator.Decimal
