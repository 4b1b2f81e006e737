import DeskCalculator.FixedPoint.Exponential

/-!
# Sine, cosine and arctangent of scaled integers

Sine and cosine are alternating factorial series in the square of the argument.
The arctangent divides its angle by eight before the alternating odd series.
-/

set_option autoImplicit false

namespace DeskCalculator.FixedPoint

open DeskCalculator.Natural

def sineDivisor (n : Nat) : Nat := 2 * n * (2 * n + 1)

def cosineDivisor (n : Nat) : Nat := (2 * n - 1) * (2 * n)

theorem le_sineDivisor (n : Nat) : n ≤ sineDivisor n :=
  Nat.le_trans (by omega) (Nat.le_mul_of_pos_right (2 * n) (by omega : 0 < 2 * n + 1))

theorem le_cosineDivisor (n : Nat) : n ≤ cosineDivisor n := by
  rcases Nat.eq_zero_or_pos n with rfl | hn
  · exact Nat.zero_le _
  · exact Nat.le_trans (by omega) (Nat.le_mul_of_pos_left (2 * n) (by omega : 0 < 2 * n - 1))

def scaledSquare (x : Int) (scale : Nat) : Nat := x.natAbs * x.natAbs / scale

def sin (x : Int) (w : Nat) : Int :=
  let scale := powerOfTen w
  withSign x (alternating (x.natAbs ::
    factorialTerms (scaledSquare x scale) scale sineDivisor le_sineDivisor 1 x.natAbs))

def cos (x : Int) (w : Nat) : Int :=
  let scale := powerOfTen w
  alternating (scale ::
    factorialTerms (scaledSquare x scale) scale cosineDivisor le_cosineDivisor 1 scale)

/-- Halves the angle whose tangent is `x`, by `x / (1 + √(1 + x²))`. -/
def halfAngleTangent (scale x : Nat) : Nat :=
  x * scale / (scale + floorSqrt (scale * scale + x * x))

theorem halfAngleTangent_le (scale x : Nat) : halfAngleTangent scale x ≤ scale := by
  unfold halfAngleTangent
  have hr : x ≤ floorSqrt (scale * scale + x * x) := le_floorSqrt _ _ (Nat.le_add_left _ _)
  apply Nat.div_le_of_le_mul
  exact Nat.mul_le_mul_right scale (by omega)

def eighthAngleTangent (scale x : Nat) : Nat :=
  halfAngleTangent scale (halfAngleTangent scale (halfAngleTangent scale x))

def atan (x : Int) (w : Nat) : Int :=
  let scale := powerOfTen w
  let z := eighthAngleTangent scale x.natAbs
  let terms := z :: oddTerms (z * z / scale) scale
    (square_le_of_le z scale (halfAngleTangent_le scale _)) 1 z
  withSign x (alternating terms) * 8

end DeskCalculator.FixedPoint
