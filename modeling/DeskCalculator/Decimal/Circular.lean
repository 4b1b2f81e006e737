import DeskCalculator.Decimal.Arithmetic
import DeskCalculator.FixedPoint.Circular

/-!
# Circular functions in radians

An argument so small that the function agrees with its first term to the last
digit kept is answered at once. Otherwise the angle is reduced to a turn around
zero and the function computed on scaled integers, with as many further digits
as the argument has zeros behind its point.
-/

set_option autoImplicit false

namespace DeskCalculator.Decimal

open DeskCalculator.Natural DeskCalculator.FixedPoint

def maxAngleDigits : Nat := 2000

def pi (c : Context) : Decimal :=
  let w := c.digits + guardDigits
  (ofScaled (c.known.piDigits w) (-w)).round c.digits

def isNegligible (x : Decimal) (c : Context) : Bool :=
  x.isZero || x.adjusted < -((c.digits / 2 : Nat) : Int) - 1

def angleDigits (x : Decimal) (c : Context) : Nat :=
  c.digits + guardDigits + (-x.adjusted).toNat

/-- The angle reduced to lie between `-π` and `π`, scaled by `10 ^ w`. -/
def reducedAngle (x : Decimal) (w : Nat) (c : Context) : Option Int :=
  let whole := x.integerDigits
  if maxAngleDigits < whole then none
  else
    let scaled := x.toScaled (w + whole)
    let half := c.known.piDigits (w + whole)
    let turn := half * 2
    let r := scaled - scaled.tdiv turn * turn
    let r := if half < r then r - turn else if r < -half then r + turn else r
    some (r.tdiv (tens whole))

def sin (x : Decimal) (c : Context) : Option Decimal :=
  if x.isNegligible c then (x.round c.digits).bounded?
  else
    let w := x.angleDigits c
    (x.reducedAngle w c).bind fun angle => finish (FixedPoint.sin angle w) (-w) c

def cos (x : Decimal) (c : Context) : Option Decimal :=
  if x.isNegligible c then some one
  else
    let w := x.angleDigits c
    (x.reducedAngle w c).bind fun angle => finish (FixedPoint.cos angle w) (-w) c

def tan (x : Decimal) (c : Context) : Option Decimal :=
  if x.isNegligible c then (x.round c.digits).bounded?
  else
    let w := x.angleDigits c
    (x.reducedAngle w c).bind fun angle =>
      let sine := FixedPoint.sin angle w
      let cosine := FixedPoint.cos angle w
      if cosine = 0 then none
      else finish ((sine * powerOfTen w).tdiv cosine) (-w) c

def quarterTurn (c : Context) (w : Nat) : Int := (c.known.piDigits w).tdiv 2

/-- The arcsine of `x` scaled by `10 ^ w`, for a magnitude of at most one: twice the
arctangent of `x / (1 + √(1 - x²))`. -/
def scaledAsin (x : Decimal) (w : Nat) (c : Context) : Int :=
  if x.abs = one then
    if x.isNegative then -quarterTurn c w else quarterTurn c w
  else
    let scale := powerOfTen w
    let scaled := x.toScaled w
    let cosine := floorSqrt (scale * scale - scaled.natAbs * scaled.natAbs)
    let tangent := (scaled * scale).tdiv ((scale + cosine : Nat) : Int)
    FixedPoint.atan tangent w * 2

def asin (x : Decimal) (c : Context) : Option Decimal :=
  if x.abs.cmp one = .gt then none
  else if x.isNegligible c then (x.round c.digits).bounded?
  else
    let w := x.angleDigits c
    finish (x.scaledAsin w c) (-w) c

def acos (x : Decimal) (c : Context) : Option Decimal :=
  if x.abs.cmp one = .gt then none
  else
    let w := c.digits + guardDigits
    finish (quarterTurn c w - x.scaledAsin w c) (-w) c

/-- The arctangent. Above one it is a quarter turn less the arctangent of the inverse. -/
def atan (x : Decimal) (c : Context) : Option Decimal :=
  if x.isNegligible c then (x.round c.digits).bounded?
  else
    let w := x.angleDigits c
    if x.abs.cmp one = .gt then
      (one.div x (c.withDigits w)).bind fun inverse =>
        let rest := FixedPoint.atan (inverse.toScaled w) w
        let quarter := if x.isNegative then -quarterTurn c w else quarterTurn c w
        finish (quarter - rest) (-w) c
    else finish (FixedPoint.atan (x.toScaled w) w) (-w) c

end DeskCalculator.Decimal
