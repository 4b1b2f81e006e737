import DeskCalculator.Decimal.Circular
import DeskCalculator.Decimal.Exponential
import DeskCalculator.Running

/-!
# Transcendental functions in a running program

Which digits of the constants the functions ask for, and the functions with
what they leave behind. Only an exponential, a logarithm in base ten and the
reduction of an angle divide by such digits.
-/

set_option autoImplicit false

namespace DeskCalculator.Decimal

open DeskCalculator.Natural DeskCalculator.FixedPoint Running

/-! ### Exponential and logarithms -/

def expAsk? (x : Decimal) (c : Context) : Option Ask :=
  if x.isZero || 17 ≤ x.adjusted then none
  else some { constant := .ln10, digits := c.digits + guardDigits + x.integerDigits, divides := true }

def expRunning (x : Decimal) (c : Context) : Running Decimal :=
  asking (x.expAsk? c) fun known => orOutOfRange (x.exp (c.knowing known))

def lnAsk? (x : Decimal) (c : Context) : Option Ask :=
  if x.mantissa ≤ 0 ∨ x = one ∨ x.adjusted = 0 then none
  else some { constant := .ln10, digits := x.logarithmDigits c }

def lnRunning (x : Decimal) (c : Context) : Running Decimal :=
  asking (x.lnAsk? c) fun known => orOutOfRange (x.ln (c.knowing known))

def log10Ask? (x : Decimal) (c : Context) : Option Ask :=
  if x.mantissa ≤ 0 ∨ x.significand = one then none
  else some { constant := .ln10, digits := x.logarithmDigits c, divides := true }

def log10Running (x : Decimal) (c : Context) : Running Decimal :=
  asking (x.log10Ask? c) fun known => orOutOfRange (x.log10 (c.knowing known))

/-! ### Powers -/

/-- `x ^ y` for positive `x`. Each of its steps finds what the ones before it have kept. -/
def powerOfPositiveRunning (x y : Decimal) (c : Context) : Running Decimal := do
  let guarded := guardDigits + 5
  let logarithm ← x.lnRunning (c.widen guarded)
  let rough ← within (y.mul logarithm (c.widen guarded))
  if 17 ≤ rough.adjusted then rough.expRunning c
  else
    let whole := rough.integerDigits
    let t ←
      if 0 < whole then do
        let wider := c.widen (guarded + whole)
        let logarithm ← x.lnRunning wider
        within (y.mul logarithm wider)
      else pure rough
    let power ← t.expRunning (c.widen guardDigits)
    return power.round c.digits

def powIsExponential (x y : Decimal) : Bool :=
  !y.isZero && !x.isZero && y.toWord?.isNone && (!x.isNegative || y.isInteger)

def powRunning (x y : Decimal) (c : Context) : Running Decimal :=
  if x.powIsExponential y then do
    let p ← x.abs.powerOfPositiveRunning y c
    return if x.isNegative && !y.isEven then -p else p
  else within (x.pow y c)

/-! ### Circular functions -/

def piAsk (c : Context) : Ask := { constant := .pi, digits := c.digits + guardDigits }

def angleAsk? (x : Decimal) (c : Context) : Option Ask :=
  if x.isNegligible c || maxAngleDigits < x.integerDigits then none
  else some { constant := .pi, digits := x.angleDigits c + x.integerDigits, divides := true }

def sinRunning (x : Decimal) (c : Context) : Running Decimal :=
  asking (x.angleAsk? c) fun known => orOutOfRange (x.sin (c.knowing known))

def cosRunning (x : Decimal) (c : Context) : Running Decimal :=
  asking (x.angleAsk? c) fun known => orOutOfRange (x.cos (c.knowing known))

def tanRunning (x : Decimal) (c : Context) : Running Decimal :=
  asking (x.angleAsk? c) fun known => orOutOfRange (x.tan (c.knowing known))

/-- Whether `1 - x²` is not negative in scaled integers, so that it has a root. -/
def hasCosine (x : Decimal) (w : Nat) : Bool :=
  x.abs = one || (x.toScaled w).natAbs ≤ powerOfTen w

def asinRunning (x : Decimal) (c : Context) : Running Decimal :=
  if x.abs.cmp one = .gt ∨ x.isNegligible c then within (x.asin c)
  else if x.hasCosine (x.angleDigits c) then
    let asked : Option Ask :=
      if x.abs = one then some { constant := .pi, digits := x.angleDigits c } else none
    asking asked fun known => orOutOfRange (x.asin (c.knowing known))
  else breakOff

def acosRunning (x : Decimal) (c : Context) : Running Decimal :=
  if x.abs.cmp one = .gt then within (x.acos c)
  else if x.hasCosine (c.digits + guardDigits) then
    asking (some (piAsk c)) fun known => orOutOfRange (x.acos (c.knowing known))
  else breakOff

def atanAsk? (x : Decimal) (c : Context) : Option Ask :=
  if x.isNegligible c || x.abs.cmp one ≠ .gt || (one.div x (c.withDigits (x.angleDigits c))).isNone
  then none
  else some { constant := .pi, digits := x.angleDigits c }

def atanRunning (x : Decimal) (c : Context) : Running Decimal :=
  asking (x.atanAsk? c) fun known => orOutOfRange (x.atan (c.knowing known))

end DeskCalculator.Decimal
