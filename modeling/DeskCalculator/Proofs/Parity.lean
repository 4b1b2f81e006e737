import DeskCalculator.Proofs.Constants
import DeskCalculator.Proofs.Outcome
import DeskCalculator.Proofs.Quotient

/-!
# Signs

The operations treat the two signs alike. The opposite of an operand gives the opposite of the
result or the same result, to the last digit, and where there is no result for one there is none
for the other. All of them end with a rounding and the range, which treat the signs alike; so it is
enough to follow the sign to that end.
-/

set_option autoImplicit false

namespace DeskCalculator

open DeskCalculator.Natural DeskCalculator.FixedPoint

/-! ### Scaled integers -/

namespace FixedPoint

theorem withSign_neg {x m : ℤ} (h : x = 0 → m = 0) : withSign (-x) m = -withSign x m := by
  unfold withSign
  rcases lt_trichotomy x 0 with hx | hx | hx
  · rw [if_neg (by omega), if_pos hx, neg_neg]
  · simp [hx, h hx]
  · rw [if_pos (by omega), if_neg (by omega)]

theorem factorialTerms_zero (ratio scale : ℕ) (divisor : ℕ → ℕ) (grows : ∀ n, n ≤ divisor n)
    (n : ℕ) : factorialTerms ratio scale divisor grows n 0 = [] := by
  rw [factorialTerms]
  simp

theorem oddTerms_zero (ratio scale : ℕ) (small : ratio ≤ scale) (k : ℕ) :
    oddTerms ratio scale small k 0 = [] := by
  rw [oddTerms]
  simp

theorem sin_neg (x : ℤ) (w : ℕ) : sin (-x) w = -sin x w := by
  unfold sin scaledSquare
  simp only [Int.natAbs_neg]
  refine withSign_neg fun hx => ?_
  rw [hx, Int.natAbs_zero, factorialTerms_zero]
  rfl

theorem cos_neg (x : ℤ) (w : ℕ) : cos (-x) w = cos x w := by
  unfold cos scaledSquare
  rw [Int.natAbs_neg]

theorem eighthAngleTangent_zero (scale : ℕ) : eighthAngleTangent scale 0 = 0 := by
  simp [eighthAngleTangent, halfAngleTangent]

theorem atan_neg (x : ℤ) (w : ℕ) : atan (-x) w = -atan x w := by
  unfold atan
  simp only [Int.natAbs_neg]
  rw [withSign_neg, neg_mul]
  intro hx
  simp only [hx, Int.natAbs_zero, eighthAngleTangent_zero, oddTerms_zero]
  rfl

end FixedPoint

namespace Decimal

variable {c : Context}

/-! ### The representation -/

instance : InvolutiveNeg Decimal where
  neg_neg _ := Decimal.ext (Int.neg_neg _) rfl

theorem neg_zero_eq : -zero = zero := Decimal.ext rfl rfl

theorem isZero_neg (x : Decimal) : (-x).isZero = x.isZero := by
  show decide (-x.mantissa = 0) = decide (x.mantissa = 0)
  rw [decide_eq_decide]
  omega

theorem isNegative_neg {x : Decimal} (hx : x.isZero ≠ true) : (-x).isNegative = !x.isNegative := by
  have hm : x.mantissa ≠ 0 := fun h => hx (decide_eq_true h)
  show decide (-x.mantissa < 0) = !decide (x.mantissa < 0)
  rw [← decide_not, decide_eq_decide]
  omega

theorem natAbs_mantissa_neg (x : Decimal) : (-x).mantissa.natAbs = x.mantissa.natAbs :=
  Int.natAbs_neg _

theorem exponent_neg {x : Decimal} : (-x).exponent = x.exponent := rfl

theorem abs_opposite (x : Decimal) : (-x).abs = x.abs := by
  apply value_injective
  rw [value_abs, value_abs, value_neg, abs_neg]

theorem integerDigits_neg (x : Decimal) : (-x).integerDigits = x.integerDigits := by
  rw [integerDigits, adjusted_neg, integerDigits]

theorem ofScaled_neg (m e : ℤ) : ofScaled (-m) e = -ofScaled m e := by
  apply value_injective
  rw [value_neg, value_ofScaled, value_ofScaled, Int.cast_neg, neg_mul]

theorem toScaled_neg (x : Decimal) (w : ℕ) : (-x).toScaled w = -x.toScaled w := by
  unfold toScaled
  simp only [length_neg, exponent_neg]
  show (if _ then -x.mantissa * _ else if _ then 0 else (-x.mantissa).tdiv _) = _
  split
  · rw [neg_mul]
  · split
    · rfl
    · rw [Int.neg_tdiv]

theorem bounded?_neg (x : Decimal) : (-x).bounded? = x.bounded?.map (-·) := by
  have hrange : (-x).InRange ↔ x.InRange :=
    ⟨fun h => neg_neg x ▸ inRange_neg h, inRange_neg⟩
  unfold bounded?
  simp only [hrange, adjusted_neg]
  split
  · rfl
  · split
    · rfl
    · exact congrArg some neg_zero_eq.symm

theorem bounded?_round_neg (x : Decimal) :
    ((-x).round c.digits).bounded? = (x.round c.digits).bounded?.map (-·) := by
  rw [round_neg x c.positive, bounded?_neg]

theorem finish_neg (m e : ℤ) : finish (-m) e c = (finish m e c).map (-·) := by
  rw [finish, ofScaled_neg, bounded?_round_neg, finish]

theorem finish_neg_mul (s m e : ℤ) : finish (-s * m) e c = (finish (s * m) e c).map (-·) := by
  rw [neg_mul, finish_neg]

/-! ### The four operations and the remainder -/

variable (x y : Decimal)

theorem besides_neg {x : Decimal} (hx : x.isZero ≠ true) (y : Decimal) :
    (-x).besides (-y) c = -x.besides y c := by
  unfold besides
  simp only [adjusted_neg, exponent_neg, isNegative_neg hx]
  split
  · rfl
  · cases x.isNegative <;> rfl

theorem aligned_neg : aligned (-x) (-y) c = (aligned x y c).map (-·) := by
  unfold aligned
  simp only [exponent_neg]
  rw [← finish_neg]
  show finish (-x.mantissa * _ + -y.mantissa * _) _ c = _
  congr 1
  ring

theorem add_neg_neg : (-x).add (-y) c = (x.add y c).map (-·) := by
  unfold add
  rw [isZero_neg, isZero_neg]
  split
  · exact bounded?_round_neg x
  · next hy =>
    split
    · exact bounded?_round_neg y
    · next hx => rw [besides_neg hx, besides_neg hy, aligned_neg]

theorem mul_neg_left : (-x).mul y c = (x.mul y c).map (-·) := by
  unfold mul
  rw [← finish_neg, ← neg_mul]
  rfl

theorem mul_neg_neg : (-x).mul (-y) c = x.mul y c := by
  unfold mul
  show finish (-x.mantissa * -y.mantissa) (x.exponent + y.exponent) c = _
  rw [neg_mul_neg]

theorem finish_sign (p : Prop) [Decidable p] (m e : ℤ) :
    finish ((if ¬p then 1 else -1) * m) e c =
      (finish ((if p then 1 else -1) * m) e c).map (-·) := by
  by_cases hp : p
  · rw [if_neg (not_not.mpr hp), if_pos hp, finish_neg_mul]
  · rw [if_pos hp, if_neg hp, finish_neg_mul, Option.map_map]
    simp

theorem div_neg_left : (-x).div y c = (x.div y c).map (-·) := by
  unfold div
  simp only [isZero_neg, natAbs_mantissa_neg, length_neg, exponent_neg]
  split
  · rfl
  · split
    · exact congrArg some neg_zero_eq.symm
    · next hx =>
      have hsign : ((-x).isNegative = y.isNegative) = ¬x.isNegative = y.isNegative := by
        rw [isNegative_neg hx]
        cases x.isNegative <;> cases y.isNegative <;> simp
      simp only [hsign]
      split <;> exact finish_sign _ _ _

theorem div_neg_right : x.div (-y) c = (x.div y c).map (-·) := by
  unfold div
  simp only [isZero_neg, natAbs_mantissa_neg, length_neg, exponent_neg]
  split
  · rfl
  · next hy =>
    split
    · exact congrArg some neg_zero_eq.symm
    · have hsign : (x.isNegative = (-y).isNegative) = ¬x.isNegative = y.isNegative := by
        rw [isNegative_neg hy]
        cases x.isNegative <;> cases y.isNegative <;> simp
      simp only [hsign]
      split <;> exact finish_sign _ _ _

theorem signFactor_neg {x : Decimal} (hx : x.isZero ≠ true) : (-x).signFactor = -x.signFactor := by
  unfold signFactor
  rw [isNegative_neg hx]
  cases x.isNegative <;> rfl

theorem cmp_abs_of_isZero {x y : Decimal} (hx : x.isZero = true) (hy : y.isZero ≠ true) :
    x.abs.cmp y.abs = .lt := by
  rw [cmp_eq_compare_value, value_abs, value_abs, isZero_iff.mp hx, abs_zero, compare_lt_iff_lt,
    abs_pos]
  exact fun h => hy (isZero_iff.mpr h)

theorem rem_neg_left : (-x).rem y c = (x.rem y c).map (-·) := by
  unfold rem
  simp only [abs_opposite, natAbs_mantissa_neg, exponent_neg]
  split
  · rfl
  · next hy =>
    split
    · exact bounded?_round_neg x
    · next hge =>
      have hsign := signFactor_neg fun hx => hge (cmp_abs_of_isZero hx hy)
      unfold signFactor at hsign
      rw [hsign]
      split <;> exact finish_neg_mul _ _ _

theorem rem_neg_right : x.rem (-y) c = x.rem y c := by
  unfold rem
  simp only [isZero_neg, abs_opposite, natAbs_mantissa_neg, exponent_neg]

/-! ### Roots -/

theorem root_neg {k : ℕ} (hk : k % 2 = 1) : (-x).root k c = (x.root k c).map (-·) := by
  have hodd : ∀ b : Bool, ¬(b = true ∧ k % 2 = 0) := by omega
  unfold root
  simp only [isZero_neg, natAbs_mantissa_neg, length_neg, exponent_neg, hodd, or_false]
  split
  · rfl
  · split
    · exact congrArg some neg_zero_eq.symm
    · next hx =>
      have hsign := signFactor_neg hx
      unfold signFactor at hsign
      rw [hsign]
      split <;> exact finish_neg_mul _ _ _

/-! ### Circular functions -/

theorem isNegligible_neg : (-x).isNegligible c = x.isNegligible c := by
  rw [isNegligible, isZero_neg, adjusted_neg, isNegligible]

theorem angleDigits_neg : (-x).angleDigits c = x.angleDigits c := by
  rw [angleDigits, adjusted_neg, angleDigits]

theorem reducedAngle_neg (hpi : Computed computePi c.known.pi) (w : ℕ) :
    (-x).reducedAngle w c = (x.reducedAngle w c).map (-·) := by
  have hhalf := piDigits_nonneg hpi (w + x.integerDigits)
  unfold reducedAngle
  simp only [integerDigits_neg, toScaled_neg, Int.neg_tdiv]
  split
  · rfl
  · generalize c.known.piDigits (w + x.integerDigits) = half at hhalf ⊢
    generalize x.toScaled (w + x.integerDigits) = scaled
    generalize scaled.tdiv (half * 2) = n
    rw [Option.map_some, Option.some_inj, ← Int.neg_tdiv]
    congr 1
    split_ifs <;> grind

theorem sin_neg (hpi : Computed computePi c.known.pi) : (-x).sin c = (x.sin c).map (-·) := by
  unfold sin
  simp only [isNegligible_neg, angleDigits_neg, reducedAngle_neg x hpi]
  split
  · exact bounded?_round_neg x
  · cases x.reducedAngle (x.angleDigits c) c with
    | none => rfl
    | some angle => exact (congrArg (finish · _ c) (FixedPoint.sin_neg _ _)).trans (finish_neg _ _)

theorem cos_neg (hpi : Computed computePi c.known.pi) : (-x).cos c = x.cos c := by
  unfold cos
  simp only [isNegligible_neg, angleDigits_neg, reducedAngle_neg x hpi]
  split
  · rfl
  · cases x.reducedAngle (x.angleDigits c) c with
    | none => rfl
    | some angle => exact congrArg (finish · _ c) (FixedPoint.cos_neg _ _)

theorem tan_neg (hpi : Computed computePi c.known.pi) : (-x).tan c = (x.tan c).map (-·) := by
  unfold tan
  simp only [isNegligible_neg, angleDigits_neg, reducedAngle_neg x hpi]
  split
  · exact bounded?_round_neg x
  · cases x.reducedAngle (x.angleDigits c) c with
    | none => rfl
    | some angle =>
      simp only [Option.map_some, Option.bind_some, FixedPoint.sin_neg, FixedPoint.cos_neg]
      split
      · rfl
      · rw [neg_mul, Int.neg_tdiv, finish_neg]

theorem scaledAsin_neg {x : Decimal} (hx : x.isZero ≠ true) (w : ℕ) :
    (-x).scaledAsin w c = -x.scaledAsin w c := by
  unfold scaledAsin
  simp only [abs_opposite, isNegative_neg hx, toScaled_neg, Int.natAbs_neg]
  split
  · cases x.isNegative <;> simp
  · rw [neg_mul, Int.neg_tdiv, atan_neg, neg_mul]

theorem asin_neg : (-x).asin c = (x.asin c).map (-·) := by
  unfold asin
  simp only [abs_opposite, isNegligible_neg, angleDigits_neg]
  split
  · rfl
  · split
    · exact bounded?_round_neg x
    · next hx =>
      have hx0 : x.isZero ≠ true := fun h => hx (by rw [isNegligible, h, Bool.true_or])
      rw [scaledAsin_neg hx0, finish_neg]

theorem atan_neg : (-x).atan c = (x.atan c).map (-·) := by
  unfold atan
  simp only [abs_opposite, isNegligible_neg, angleDigits_neg, div_neg_right, toScaled_neg]
  split
  · exact bounded?_round_neg x
  · next hx =>
    have hx0 : x.isZero ≠ true := fun h => hx (by rw [isNegligible, h, Bool.true_or])
    split
    · cases one.div x (c.withDigits (x.angleDigits c)) with
      | none => rfl
      | some inverse =>
        simp only [Option.map_some, Option.bind_some, toScaled_neg, FixedPoint.atan_neg,
          isNegative_neg hx0]
        rw [← finish_neg]
        congr 1
        cases x.isNegative <;> simp <;> ring
    · rw [FixedPoint.atan_neg, finish_neg]

end Decimal

end DeskCalculator
