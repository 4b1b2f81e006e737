import DeskCalculator.FixedPoint.Series
import DeskCalculator.Natural.Digits
import DeskCalculator.Natural.Root

/-!
# Exponential and logarithm of scaled integers

The exponential halves its argument twelve times, sums the factorial series and
squares back. The logarithm takes four square roots to come near one and sums
the odd series of the inverse hyperbolic tangent.
-/

set_option autoImplicit false

namespace DeskCalculator.FixedPoint

open DeskCalculator.Natural

def halvings : Nat := 12

def exponentialTerms (y scale : Nat) : List Nat :=
  scale :: factorialTerms y scale id (fun n => Nat.le_refl n) 1 scale

def squareTimes (scale : Nat) : Nat → Int → Int
  | 0, x => x
  | n + 1, x => squareTimes scale n ((x * x).tdiv scale)

def exp (x : Int) (w : Nat) : Int :=
  let scale := powerOfTen w
  let y := x.tdiv (Nat.pow 2 halvings)
  let terms := exponentialTerms y.natAbs scale
  let sum : Int := if y < 0 then alternating terms else total terms
  squareTimes scale halvings sum

/-- Square roots taken before the series of the logarithm. -/
def rootings : Nat := 4

def rootTimes (scale : Nat) : Nat → Nat → Nat
  | 0, a => a
  | n + 1, a => rootTimes scale n (floorSqrt (a * scale))

def artanhArgument (a scale : Nat) : Nat := ((a : Int) - scale).natAbs * scale / (a + scale)

theorem artanhArgument_le (a scale : Nat) : artanhArgument a scale ≤ scale := by
  unfold artanhArgument
  apply Nat.div_le_of_le_mul
  exact Nat.mul_le_mul_right scale (by omega)

theorem square_le_of_le (z scale : Nat) (h : z ≤ scale) : z * z / scale ≤ scale :=
  Nat.div_le_of_le_mul (Nat.mul_le_mul h h)

def ln (a w : Nat) : Int :=
  let scale := powerOfTen w
  let root := rootTimes scale rootings a
  let z := artanhArgument root scale
  let terms := z :: oddTerms (z * z / scale) scale
    (square_le_of_le z scale (artanhArgument_le root scale)) 1 z
  withSign (root - scale) (total terms) * (Nat.pow 2 (rootings + 1) : Nat)

end DeskCalculator.FixedPoint
