import DeskCalculator.NamedFunction
import DeskCalculator.Proofs.Angle

/-!
# Angles in degrees and grads

An angle is multiplied by the circle constant and divided by the units of a half turn, each rounded
to the digits of the context. So the angle in radians is off by a part of its own size: the error
is one of the last digits that are kept, and for an angle of many turns these are no longer the
digits that tell where in a turn it ends.

The constant is the same whatever digits of it were computed before, as long as none of its
roundings is in doubt: the digits that are known leave a doubt only close to halfway between two
numbers, and up to a thousand digits the circle constant does not come that close.
-/

set_option autoImplicit false

namespace DeskCalculator

open DeskCalculator.Natural DeskCalculator.FixedPoint

/-! ### A thousand digits -/

namespace FixedPoint

def boundedTerms (q scale : ℕ) : ℕ → ℕ → ℕ → List ℕ
  | 0, _, _ => []
  | n + 1, power, k =>
    let term := scale / (power * (2 * k + 1))
    if term = 0 then [] else term :: boundedTerms q scale n (power * (q * q)) (k + 1)

theorem inverseTerms_eq_boundedTerms {q scale n power : ℕ} (positive : 0 < q) (k : ℕ)
    (h : scale < power * (q * q) ^ n) :
    inverseTerms q positive scale power k = boundedTerms q scale n power k := by
  induction n generalizing power k with
  | zero =>
    have hlt : scale < power * (2 * k + 1) := by
      rw [pow_zero, mul_one] at h
      exact h.trans_le (Nat.le_mul_of_pos_right _ (by omega))
    rw [inverseTerms, dif_pos (Nat.div_eq_of_lt hlt), boundedTerms]
  | succ n ih =>
    rw [inverseTerms, boundedTerms, ih (k + 1) (by rwa [mul_assoc, ← pow_succ'])]
    rfl

def manyDigits : ℤ :=
  (16 * alternating (boundedTerms 5 (tens 1030) 760 5 0) -
    4 * alternating (boundedTerms 239 (tens 1030) 240 239 0)).tdiv (tens 10)

theorem computePi_eq_manyDigits : computePi 1020 = manyDigits := by
  have hscale : powerOfTen (1020 + extraDigits) = tens 1030 := powerOfTen_eq _ (by decide)
  rw [computePi, manyDigits, arctanInverse, arctanInverse, hscale,
    inverseTerms_eq_boundedTerms (n := 760) _ 0 (by decide +kernel),
    inverseTerms_eq_boundedTerms (n := 240) _ 0 (by decide +kernel)]
  rfl

/-- After each of its first thousand digits the rest is not close to a half. -/
theorem manyDigits_rest : ∀ u < 989, 16 ≤ u →
    2 * 10 ^ u ≤ 10 ^ 9 * |2 * (manyDigits % 10 ^ u) - 10 ^ u| := by
  decide +kernel

/-- A number whose multiple by `U` is within ten of `U * k + r` is near one of two neighbouring
integers, if `r` is not close to half of `U`. -/
theorem exists_near_of_rest {X : ℝ} {U k r : ℤ} (hU : 10 ^ 16 ≤ U) (h0 : 0 ≤ r) (hr : r < U)
    (hrest : 2 * U ≤ 10 ^ 9 * |2 * r - U|) (hoff : |((U * k + r : ℤ) : ℝ) - X * U| ≤ 10) :
    ∃ j : ℤ, |X - j| < 1 / 2 - 1 / 10 ^ 10 := by
  have hUr : (10 : ℝ) ^ 16 ≤ U := by exact_mod_cast hU
  have h0r : (0 : ℝ) ≤ r := by exact_mod_cast h0
  have hrr : (r : ℝ) < U := by exact_mod_cast hr
  have hpos : (0 : ℝ) ≤ U := by linarith
  obtain ⟨h1, h2⟩ := abs_le.mp hoff
  push_cast at h1 h2
  rcases le_total (2 * r - U) 0 with hlow | hhigh
  · rw [abs_of_nonpos hlow] at hrest
    have hrestr : (2 : ℝ) * U ≤ 10 ^ 9 * -(2 * r - U) := by exact_mod_cast hrest
    refine ⟨k, abs_lt.mpr ⟨lt_of_mul_lt_mul_right ?_ hpos, lt_of_mul_lt_mul_right ?_ hpos⟩⟩ <;>
      linarith
  · rw [abs_of_nonneg hhigh] at hrest
    have hrestr : (2 : ℝ) * U ≤ 10 ^ 9 * (2 * r - U) := by exact_mod_cast hrest
    refine ⟨k + 1, abs_lt.mpr ⟨lt_of_mul_lt_mul_right ?_ hpos, lt_of_mul_lt_mul_right ?_ hpos⟩⟩ <;>
      push_cast <;> linarith

theorem exists_near_pi {n : ℕ} (hlow : 32 ≤ n) (hhigh : n ≤ 1004) :
    ∃ k : ℤ, |Real.pi * 10 ^ n - k| < 1 / 2 - 1 / 10 ^ 10 := by
  obtain ⟨u, hu⟩ : ∃ u, n + u = 1020 := ⟨1020 - n, by omega⟩
  have hoff := abs_computePi_sub_le (by decide : 1020 + extraDigits < UInt32.size)
  rw [computePi_eq_manyDigits, ← hu, pow_add, ← mul_assoc] at hoff
  have hpow : ((10 ^ u : ℤ) : ℝ) = 10 ^ u := by push_cast; rfl
  refine exists_near_of_rest (pow_le_pow_right₀ (by norm_num) (by omega : 16 ≤ u))
    (Int.emod_nonneg manyDigits (by positivity)) (Int.emod_lt_of_pos manyDigits (by positivity))
    (manyDigits_rest u (by omega) (by omega)) ?_ (k := manyDigits / 10 ^ u)
  rw [Int.mul_ediv_add_emod, hpow]
  exact hoff

end FixedPoint

/-! ### The rounded constant -/

namespace Decimal

variable {c c' : Context} {x : Decimal}

theorem exists_isRounding_pi (hc : c.Sound) : ∃ q : ℚ, IsRounding c.digits q (pi c).value ∧
    |(q : ℝ) - Real.pi| ≤ 1 / 10 ^ (c.digits + 9) := by
  have hdigits := hc.digits_le
  have hextra : extraDigits = 10 := rfl
  have hword : UInt32.size = 4294967296 := rfl
  have hguard : guardDigits = 10 := rfl
  have hknown := abs_piDigits_sub_le hc.computed hc.counted
    (by omega : c.digits + guardDigits + extraDigits < UInt32.size)
  have hpos : (0 : ℝ) < 10 ^ (c.digits + 10) := by positivity
  refine ⟨_, round_isRounding _ c.positive, ?_⟩
  rw [value_ofScaled, cast_scaled]
  rw [hguard] at hknown ⊢
  generalize c.known.piDigits (c.digits + 10) = m at *
  rw [show (m : ℝ) / 10 ^ (c.digits + 10) - Real.pi =
      (m - Real.pi * 10 ^ (c.digits + 10)) / 10 ^ (c.digits + 10) by field_simp, abs_div,
    abs_of_pos hpos, div_le_div_iff₀ hpos (by positivity), pow_succ _ (c.digits + 9)]
  rw [pow_succ _ (c.digits + 9)] at hknown
  linarith [mul_le_mul_of_nonneg_right hknown (by positivity : (0 : ℝ) ≤ 10 ^ (c.digits + 9))]

theorem bounds_of_near_pi {q : ℚ} (h : |(q : ℝ) - Real.pi| ≤ 1 / 10 ^ (c.digits + 9)) :
    1 ≤ |q| ∧ |q| < 10 := by
  have hsmall : (1 : ℝ) / 10 ^ (c.digits + 9) ≤ 1 :=
    div_le_one_of_le₀ (one_le_pow₀ (by norm_num)) (by positivity)
  obtain ⟨h1, h2⟩ := abs_le.mp h
  have hlow : (1 : ℝ) ≤ q := by linarith [Real.pi_gt_three]
  have hhigh : (q : ℝ) < 10 := by linarith [Real.pi_lt_four]
  have hlow' : 1 ≤ q := by exact_mod_cast hlow
  rw [abs_of_nonneg (by linarith)]
  exact ⟨hlow', by exact_mod_cast hhigh⟩

theorem abs_pi_sub_le (hc : c.Sound) : |((pi c).value : ℝ) - Real.pi| ≤ 6 / 10 ^ c.digits := by
  obtain ⟨q, hround, hq⟩ := exists_isRounding_pi hc
  obtain ⟨-, hlt⟩ := bounds_of_near_pi hq
  have hfiner : (1 : ℝ) / 10 ^ (c.digits + 9) ≤ 1 / 10 ^ c.digits :=
    one_div_le_one_div_of_le (by positivity) (pow_le_pow_right₀ (by norm_num) (by omega))
  calc |((pi c).value : ℝ) - Real.pi|
      ≤ |((pi c).value : ℝ) - q| + |(q : ℝ) - Real.pi| := abs_sub_le _ _ _
    _ ≤ 5 / 10 ^ c.digits + 1 / 10 ^ c.digits :=
      add_le_add (hround.abs_cast_sub_le hlt) (hq.trans hfiner)
    _ = 6 / 10 ^ c.digits := by ring

theorem value_pi_of_near (hc : c.Sound) {n : ℕ} (hn : c.digits = n + 1) {k : ℤ}
    (hk : |Real.pi * 10 ^ n - k| < 1 / 2 - 1 / 10 ^ 10) : (pi c).value = k * 10 ^ (-(n : ℤ)) := by
  obtain ⟨q, hround, hq⟩ := exists_isRounding_pi hc
  obtain ⟨hlow, hhigh⟩ := bounds_of_near_pi hq
  have hplace : (0 : ℤ) + 1 - (c.digits : ℤ) = -(n : ℤ) := by omega
  have hpos : (0 : ℝ) < 10 ^ n := by positivity
  have hscaled : |(q : ℝ) * 10 ^ n - Real.pi * 10 ^ n| ≤ 1 / 10 ^ 10 := by
    rw [hn, add_assoc, pow_add, ← div_div] at hq
    rw [← sub_mul, abs_mul, abs_of_pos hpos, ← le_div_iff₀ hpos, div_right_comm]
    exact hq
  have hnear : |q / 10 ^ (-(n : ℤ)) - k| < 1 / 2 := by
    have hreal : |(q : ℝ) * 10 ^ n - k| < 1 / 2 := by
      linarith [abs_sub_le ((q : ℝ) * 10 ^ n) (Real.pi * 10 ^ n) k]
    rw [zpow_neg, div_inv_eq_mul, zpow_natCast, ← Rat.cast_lt (K := ℝ)]
    push_cast
    exact hreal
  refine hround.unique (.inr ⟨0, k, ?_, ?_, ?_, ?_⟩)
  · rwa [zpow_zero]
  · rwa [zero_add, zpow_one]
  · rw [hplace]
    exact .of_lt hnear
  · rw [hplace]

/-- Up to a thousand digits the constant does not depend on what is known of it. -/
theorem pi_congr (hc : c.Sound) (hc' : c'.Sound) (hdigits : c'.digits = c.digits)
    (hlow : 33 ≤ c.digits) (hhigh : c.digits ≤ 1005) : pi c' = pi c := by
  obtain ⟨n, hn⟩ : ∃ n, c.digits = n + 1 := ⟨c.digits - 1, by omega⟩
  obtain ⟨k, hk⟩ := exists_near_pi (n := n) (by omega) (by omega)
  apply value_injective
  rw [value_pi_of_near hc hn hk, value_pi_of_near hc' (hdigits.trans hn) hk]

/-! ### The angle in radians -/

theorem toRadians_congr (hdigits : c'.digits = c.digits) (hpi : pi c' = pi c) (x : Decimal)
    (unit : AngleUnit) : x.toRadians unit c' = x.toRadians unit c := by
  unfold toRadians
  rw [hpi]
  unfold mul div finish
  rw [hdigits]

theorem halfTurn_bounds {unit : AngleUnit} {halfTurn : Decimal}
    (h : unit.halfTurn? = some halfTurn) :
    180 ≤ halfTurn.value ∧ halfTurn.value ≤ 200 ∧ halfTurn.length ≤ 3 := by
  cases unit with
  | degree =>
    obtain rfl : ofInt 180 = halfTurn := Option.some_inj.mp h
    rw [value_ofInt]
    exact ⟨by norm_num, by norm_num, length_ofScaled_le 0 (by decide) (by decide)⟩
  | radian => exact absurd h (by simp [AngleUnit.halfTurn?])
  | gradian =>
    obtain rfl : ofInt 200 = halfTurn := Option.some_inj.mp h
    rw [value_ofInt]
    exact ⟨by norm_num, by norm_num, length_ofScaled_le 0 (by decide) (by decide)⟩

section

variable {u p h r s E : ℝ} (hE : 10 ≤ E) (hp : |p - Real.pi| ≤ 6 / E)

include hE hp

theorem abs_product_le (u : ℝ) : |u * p| ≤ 15 / 4 * |u| := by
  have hunit : 1 / E ≤ 1 / 10 := one_div_le_one_div_of_le (by norm_num) hE
  have hp' : |p - Real.pi| ≤ 6 * (1 / E) := by rwa [mul_one_div]
  have hpabs : |p| ≤ 15 / 4 := by
    linarith [abs_sub_abs_le_abs_sub p Real.pi, abs_of_pos Real.pi_pos, Real.pi_lt_d2]
  rw [abs_mul, mul_comm]
  exact mul_le_mul_of_nonneg_right hpabs (abs_nonneg u)

variable (hr : |r - u * p| ≤ (5 * |u * p| + 1) / E)

include hr

theorem abs_rounded_product_le : |r| ≤ 6 * |u| + 1 := by
  have hunit : 1 / E ≤ 1 / 10 := one_div_le_one_div_of_le (by norm_num) hE
  have hproduct := abs_product_le hE hp u
  have hoff : |r - u * p| ≤ (5 * |u * p| + 1) * (1 / 10) := by
    rw [← mul_one_div] at hr
    exact hr.trans (mul_le_mul_of_nonneg_left hunit (by positivity))
  linarith [abs_sub_abs_le_abs_sub r (u * p), abs_nonneg u]

theorem abs_radians_sub_le (hh : 180 ≤ h) (hs : |s - r / h| ≤ (5 * |r / h| + 1) / E) :
    |s - u * Real.pi / h| ≤ (|u| / 3 + 2) / E := by
  have hE0 : 0 < E := by linarith
  have hu := abs_nonneg u
  have hproduct := abs_product_le hE hp u
  have hrabs := abs_rounded_product_le hE hp hr
  have hroff : |r - u * p| ≤ (75 / 4 * |u| + 1) / E :=
    hr.trans (div_le_div_of_nonneg_right (by linarith) hE0.le)
  -- dividing by the half turn makes each of these smaller by as much
  have hdiv : ∀ y b : ℝ, |y| ≤ b → |y / h| ≤ b / 180 := fun y b hy => by
    rw [abs_div, abs_of_pos (by linarith : 0 < h)]
    exact div_le_div₀ ((abs_nonneg y).trans hy) hy (by norm_num) hh
  have hs' : |s - r / h| ≤ (5 * ((6 * |u| + 1) / 180) + 1) / E :=
    hs.trans (div_le_div_of_nonneg_right (by linarith [hdiv r _ hrabs]) hE0.le)
  have hr' : |r / h - u * p / h| ≤ (75 / 4 * |u| + 1) / E / 180 := by
    rw [← sub_div]
    exact hdiv _ _ hroff
  have hp' : |u * p / h - u * Real.pi / h| ≤ |u| * (6 / E) / 180 := by
    rw [← sub_div, ← mul_sub]
    refine hdiv _ _ ?_
    rw [abs_mul]
    exact mul_le_mul_of_nonneg_left hp hu
  calc |s - u * Real.pi / h|
      ≤ |s - r / h| + |r / h - u * p / h| + |u * p / h - u * Real.pi / h| := by
        linarith [abs_sub_le s (r / h) (u * Real.pi / h),
          abs_sub_le (r / h) (u * p / h) (u * Real.pi / h)]
    _ ≤ (5 * ((6 * |u| + 1) / 180) + 1) / E + (75 / 4 * |u| + 1) / E / 180 +
        |u| * (6 / E) / 180 := add_le_add (add_le_add hs' hr') hp'
    _ = (73 / 240 * |u| + 31 / 30) / E := by ring
    _ ≤ (|u| / 3 + 2) / E := div_le_div_of_nonneg_right (by linarith) hE0.le

end

theorem abs_lt_ten_zpow_max {q : ℚ} {n : ℕ} (hn : n ≤ 2000) (h : |(q : ℝ)| < 10 ^ n * 100) :
    |q| < 10 ^ maxAdjusted := by
  have hmax : maxAdjusted = 9000000000000000 := rfl
  have hq : |q| < 10 ^ n * 100 := by exact_mod_cast h
  have hpow : (10 : ℚ) ^ n * 100 = 10 ^ ((n + 2 : ℕ) : ℤ) := by
    rw [zpow_natCast, pow_add]
    norm_num
  rw [hpow] at hq
  exact hq.trans_le (ten_zpow_le.mpr (by omega))

/-- The angle in radians is off by a third of a unit of the last digit for each unit of angle. -/
theorem exists_toRadians (hc : c.Sound) {unit : AngleUnit} {halfTurn : Decimal}
    (hunit : unit.halfTurn? = some halfTurn) {n : ℕ} (hn0 : 0 < n) (hn : n ≤ maxAngleDigits)
    (hx : |(x.value : ℝ)| < 10 ^ n) : ∃ a : Decimal, x.toRadians unit c = some a ∧
      a.integerDigits ≤ maxAngleDigits ∧
      |(a.value : ℝ) - x.value * Real.pi / halfTurn.value| ≤
        (|(x.value : ℝ)| / 3 + 2) / 10 ^ c.digits := by
  have hdigits := hc.digits_le
  have hword : UInt32.size = 4294967296 := rfl
  obtain ⟨hlow, -, hlength⟩ := halfTurn_bounds hunit
  have hlowr : (180 : ℝ) ≤ halfTurn.value := by exact_mod_cast hlow
  have hE : (10 : ℝ) ≤ 10 ^ c.digits := le_self_pow₀ (by norm_num) c.positive.ne'
  have hB : (10 : ℝ) ≤ 10 ^ n := le_self_pow₀ (by norm_num) hn0.ne'
  have hp := abs_pi_sub_le hc
  obtain ⟨r, hr, hroff⟩ := (rounds_mul (c := c) x (pi c)).exists_relative hc
    (abs_lt_ten_zpow_max hn (by push_cast; linarith [abs_product_le hE hp x.value]))
  push_cast at hroff
  have hquotient : |(r.value : ℝ) / halfTurn.value| ≤ |(r.value : ℝ)| := by
    rw [abs_div]
    exact div_le_self (abs_nonneg _) (by rw [abs_of_pos] <;> linarith)
  obtain ⟨a, ha, haoff⟩ := (rounds_div (c := c) r (y := halfTurn) (by linarith)
    (by omega)).exists_relative hc (abs_lt_ten_zpow_max hn (by
      push_cast
      linarith [abs_rounded_product_le hE hp hroff]))
  push_cast at haoff
  have hoff := abs_radians_sub_le hE hp hroff hlowr haoff
  refine ⟨a, ?_, (integerDigits_le hn0 ?_).trans hn, hoff⟩
  · rw [toRadians, hunit]
    simp only [hr, Option.bind_some]
    exact ha
  · have hunit : (|(x.value : ℝ)| / 3 + 2) / 10 ^ c.digits ≤ (|(x.value : ℝ)| / 3 + 2) / 10 :=
      div_le_div_of_nonneg_left (by positivity) (by norm_num) hE
    have hexact : |(x.value : ℝ) * Real.pi / halfTurn.value| ≤ |(x.value : ℝ)| * 4 / 180 := by
      rw [abs_div, abs_mul, abs_of_pos Real.pi_pos, abs_of_pos (by linarith : (0 : ℝ) < halfTurn.value)]
      gcongr
      exact Real.pi_lt_four.le
    linarith [abs_sub_abs_le_abs_sub (a.value : ℝ) (x.value * Real.pi / halfTurn.value)]

end Decimal

end DeskCalculator
