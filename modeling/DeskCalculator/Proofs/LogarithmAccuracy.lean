import DeskCalculator.Proofs.Accuracy
import DeskCalculator.Proofs.ExponentialSteps
import DeskCalculator.Proofs.ScaledLogarithm

/-!
# The logarithm of a decimal

The logarithm of a number is that of its significand and as many times the logarithm of ten as its
leading digit stands before the point. Both are taken with digits for the number of these times, so
what is rounded is off by two units, at most, of the last digit that is kept. That is a bound on the
error itself: near one the logarithm is smaller than its digits after the point show.
-/

set_option autoImplicit false

namespace DeskCalculator.Decimal

open DeskCalculator.Natural DeskCalculator.FixedPoint

variable {x : Decimal} {c : Context} {w : ℕ}

/-! ### The significand -/

section

variable (hx : 0 < x.value)

include hx

theorem value_eq_significand_mul : x.value = x.significand.value * 10 ^ x.adjusted := by
  have hm : ((x.mantissa.natAbs : ℤ) : ℚ) = x.mantissa := by
    rw [Int.natAbs_of_nonneg (value_pos_iff.mp hx).le]
  rw [significand, value_ofScaled, hm, value, mul_assoc, ← ten_zpow_add]
  congr 2
  have hadj := x.adjusted_eq
  omega

theorem significand_bounds : 1 ≤ x.significand.value ∧ x.significand.value < 10 := by
  have hlow := le_abs_value hx.ne'
  have hhigh := abs_value_lt x
  have hpos := ten_zpow_pos x.adjusted
  rw [abs_of_pos hx, value_eq_significand_mul hx] at hlow hhigh
  rw [ten_zpow_add, zpow_one, mul_comm _ (10 : ℚ)] at hhigh
  exact ⟨le_of_mul_le_mul_right (by rwa [one_mul]) hpos, lt_of_mul_lt_mul_right hhigh hpos.le⟩

theorem exists_toScaled_significand (hw : w + 1 < UInt32.size) :
    ∃ a : ℕ, (x.significand.toScaled w).toNat = a ∧ powerOfTen w ≤ a ∧ a ≤ 10 * powerOfTen w ∧
      (a : ℝ) ≤ x.significand.value * 10 ^ w ∧ (x.significand.value : ℝ) * 10 ^ w < a + 1 := by
  obtain ⟨hlow, hhigh⟩ := significand_bounds hx
  have hlowr : (1 : ℝ) ≤ x.significand.value := by exact_mod_cast hlow
  have hhighr : (x.significand.value : ℝ) < 10 := by exact_mod_cast hhigh
  have hdigit : x.significand.integerDigits ≤ 1 := by
    refine integerDigits_le one_pos ?_
    rwa [pow_one, abs_of_pos (by linarith)]
  have hnear := abs_toScaled_sub_lt (x := x.significand) (w := w) (by omega)
  have hle := abs_toScaled_le (x := x.significand) (w := w) (by omega)
  have hpow : powerOfTen w = 10 ^ w := powerOfTen_eq w (by omega)
  have hnonneg := toScaled_nonneg x.significand_nonneg w
  obtain ⟨a, ha⟩ := Int.eq_ofNat_of_zero_le hnonneg
  rw [ha, Int.cast_natCast] at hnear hle
  rw [Nat.abs_cast, abs_of_pos (by linarith)] at hle
  obtain ⟨hbelow, -⟩ := abs_lt.mp hnear
  have hs : (1 : ℝ) ≤ 10 ^ w := one_le_pow₀ (by norm_num)
  refine ⟨a, by rw [ha, Int.toNat_natCast], ?_, ?_, hle, by linarith⟩
  · have h : ((10 ^ w : ℕ) : ℝ) < (a + 1 : ℕ) := by
      push_cast
      nlinarith
    rw [hpow]
    exact Nat.lt_succ_iff.mp (by exact_mod_cast h)
  · have h : (a : ℝ) ≤ (10 * 10 ^ w : ℕ) := by
      push_cast
      nlinarith
    rw [hpow]
    exact_mod_cast h

theorem exists_ln_significand (hw : w + 1 < UInt32.size) :
    ∃ a : ℕ, (x.significand.toScaled w).toNat = a ∧ 10 ^ w ≤ a ∧ a < 10 * 10 ^ w ∧
      (a : ℝ) ≤ x.significand.value * 10 ^ w ∧ (x.significand.value : ℝ) * 10 ^ w < a + 1 ∧
      (FixedPoint.ln a w : ℝ) ≤ 10 ^ w * Real.log (a / 10 ^ w) ∧
      10 ^ w * Real.log (a / 10 ^ w) ≤ FixedPoint.ln a w + 32 * (w + 7) := by
  obtain ⟨a, ha, hlow, hhigh, hbelow, habove⟩ := exists_toScaled_significand hx hw
  have hlog := ln_bounds hlow hhigh
  have hpow : powerOfTen w = 10 ^ w := powerOfTen_eq w (by omega)
  have hten : (x.significand.value : ℝ) < 10 := by exact_mod_cast (significand_bounds hx).2
  have hlt : (a : ℝ) < 10 * 10 ^ w :=
    hbelow.trans_lt (mul_lt_mul_of_pos_right hten (by positivity))
  rw [scaledLog, hpow, Nat.cast_pow, Nat.cast_ofNat] at hlog
  exact ⟨a, ha, hpow ▸ hlow, by exact_mod_cast hlt, hbelow, habove, hlog⟩

theorem abs_ln_significand_sub_le (hw : w + 1 < UInt32.size) :
    |(FixedPoint.ln (x.significand.toScaled w).toNat w : ℝ) -
      Real.log x.significand.value * 10 ^ w| ≤ 32 * (w + 7) + 1 := by
  obtain ⟨a, ha, hlow, -, hbelow, habove, hunder, hover⟩ := exists_ln_significand hx hw
  have hS : (0 : ℝ) < 10 ^ w := by positivity
  have hSa : (10 : ℝ) ^ w ≤ a := by exact_mod_cast hlow
  rw [ha]
  generalize (10 : ℝ) ^ w = S at *
  have hsig : (0 : ℝ) < x.significand.value := by
    exact_mod_cast zero_lt_one.trans_le (significand_bounds hx).1
  have hcut : Real.log (a / S) ≤ Real.log x.significand.value :=
    Real.log_le_log (div_pos (by linarith) hS) ((div_le_iff₀ hS).mpr hbelow)
  have hunit : S * (Real.log x.significand.value - Real.log (a / S)) ≤ 1 := by
    have hquotient : 0 < x.significand.value / (a / S : ℝ) :=
      div_pos hsig (div_pos (by linarith) hS)
    rw [← Real.log_div hsig.ne' (div_pos (by linarith) hS).ne']
    have hone := Real.log_le_sub_one_of_pos hquotient
    have hpart : x.significand.value / (a / S : ℝ) - 1 ≤ 1 / S := by
      rw [div_div_eq_mul_div, sub_le_iff_le_add, div_le_iff₀ (by linarith)]
      have hmore : 1 ≤ 1 / S * a := by
        rw [one_div_mul_eq_div, one_le_div hS]
        exact hSa
      linarith
    calc S * Real.log (x.significand.value / (a / S : ℝ)) ≤ S * (1 / S) :=
          mul_le_mul_of_nonneg_left (hone.trans hpart) hS.le
      _ = 1 := mul_one_div_cancel hS.ne'
  have hpos := mul_le_mul_of_nonneg_left hcut hS.le
  rw [abs_le]
  constructor <;> linarith [Nat.cast_nonneg (α := ℝ) w]

theorem log_eq_log_significand_add :
    Real.log x.value = Real.log x.significand.value + x.adjusted * Real.log 10 := by
  have hsig : (x.significand.value : ℝ) ≠ 0 := by
    exact_mod_cast (zero_lt_one.trans_le (significand_bounds hx).1).ne'
  rw [value_eq_significand_mul hx, Rat.cast_mul, cast_ten_zpow,
    Real.log_mul hsig (zpow_ne_zero _ (by norm_num)), Real.log_zpow]

end

/-! ### The logarithm -/

theorem digitCount_adjusted_le (h : x.InRange) : digitCount x.adjusted.natAbs ≤ 16 := by
  obtain ⟨hlow, hhigh⟩ := (inRange_iff_adjusted x).mp h
  have hmax : maxAdjusted = 9000000000000000 := rfl
  have htens : tens 16 = 10000000000000000 := rfl
  rw [digitCount_le_iff (by decide), htens]
  omega

section

variable (hcomputed : Computed computeLn10 c.known.ln10) (hcounted : Counted c.known.ln10)

include hcomputed hcounted

theorem abs_multiple_ln10_sub_le (e : ℤ) (hw : w + extraDigits < UInt32.size) :
    |((if e = 0 then 0 else c.known.ln10Digits w * e : ℤ) : ℝ) - e * Real.log 10 * 10 ^ w| ≤
      10 * |(e : ℝ)| := by
  split
  · next h => simp [h]
  · have hten := abs_ln10Digits_sub_le_of_counted hcomputed hcounted hw
    have hoff : ((c.known.ln10Digits w * e : ℤ) : ℝ) - e * Real.log 10 * 10 ^ w =
        (c.known.ln10Digits w - Real.log 10 * 10 ^ w) * e := by
      push_cast
      ring
    rw [hoff, abs_mul]
    exact mul_le_mul_of_nonneg_right hten (abs_nonneg _)

/-- What is rounded has digits enough for the leading digit, and is off by two units of the last
digit at most. -/
theorem exists_ln (hdigits : c.digits + 40 < UInt32.size) (hrange : x.InRange)
    (hx : 0 < x.value) : ∃ q : ℚ, Rounds c q (x.ln c) ∧
      |(q : ℝ) - Real.log x.value| ≤ 2 * 10 ^ (-(c.digits : ℤ)) := by
  have hextra : extraDigits = 10 := rfl
  have hword : UInt32.size = 4294967296 := rfl
  have hplaces := digitCount_adjusted_le hrange
  rw [ln, if_neg (not_le.mpr (value_pos_iff.mp hx))]
  by_cases hone : x = one
  · rw [if_pos hone]
    refine ⟨0, rounds_zero, ?_⟩
    rw [hone, value_one, Rat.cast_zero, Rat.cast_one, Real.log_one, sub_zero, abs_zero]
    positivity
  rw [if_neg hone]
  simp only
  have hw : x.logarithmDigits c = c.digits + 10 + digitCount x.adjusted.natAbs := rfl
  refine ⟨_, rounds_finish _ _, ?_⟩
  have hsignificand := abs_ln_significand_sub_le hx (w := x.logarithmDigits c) (by omega)
  have hexponent := abs_multiple_ln10_sub_le hcomputed hcounted x.adjusted
    (w := x.logarithmDigits c) (by omega)
  have hplace : |(x.adjusted : ℝ)| ≤ 10 ^ digitCount x.adjusted.natAbs := by
    rw [← Int.cast_abs, Int.abs_eq_natAbs, Int.cast_natCast]
    exact_mod_cast (lt_tens_digitCount x.adjusted.natAbs).le
  have hten : (10 : ℝ) ≤ 10 ^ digitCount x.adjusted.natAbs :=
    le_self_pow₀ (by norm_num) (digitCount_pos _).ne'
  have hcount : ((x.logarithmDigits c : ℕ) : ℝ) ≤ 4294967289 := by
    exact_mod_cast (by omega : x.logarithmDigits c ≤ 4294967289)
  have hscale : (10 : ℝ) ^ x.logarithmDigits c =
      10 ^ c.digits * (10 ^ 10 * 10 ^ digitCount x.adjusted.natAbs) := by
    rw [hw, pow_add, pow_add, mul_assoc]
  generalize FixedPoint.ln _ _ = ofSignificand at *
  generalize (if x.adjusted = 0 then 0 else _ : ℤ) = ofExponent at *
  have hunits : |((ofSignificand + ofExponent : ℤ) : ℝ) -
      Real.log x.value * 10 ^ x.logarithmDigits c| ≤
      2 * (10 ^ 10 * 10 ^ digitCount x.adjusted.natAbs) := by
    obtain ⟨hlow, hhigh⟩ := abs_le.mp hsignificand
    obtain ⟨hlow', hhigh'⟩ := abs_le.mp hexponent
    rw [log_eq_log_significand_add hx, Int.cast_add, abs_le]
    constructor <;> linarith
  have hS : (0 : ℝ) < 10 ^ x.logarithmDigits c := by positivity
  rw [cast_scaled, div_sub' hS.ne', mul_comm _ (Real.log _), abs_div, abs_of_pos hS,
    div_le_iff₀ hS, hscale, zpow_neg, zpow_natCast, mul_assoc,
    inv_mul_cancel_left₀ (by positivity), ← hscale]
  exact hunits

end

/-! ### Away from one -/

theorem abs_log_lt (h : x.InRange) (hx : 0 < x.value) : |Real.log x.value| < 10 ^ 17 := by
  obtain ⟨hlow, hhigh⟩ := (inRange_iff_adjusted x).mp h
  obtain ⟨hsig1, hsig10⟩ := significand_bounds hx
  have hsig1r : (1 : ℝ) ≤ x.significand.value := by exact_mod_cast hsig1
  have hsig10r : (x.significand.value : ℝ) ≤ 10 := by exact_mod_cast hsig10.le
  have hmax : maxAdjusted = 9000000000000000 := rfl
  have hlowr : (-9000000000000000 : ℝ) ≤ x.adjusted := by exact_mod_cast hlow
  have hhighr : (x.adjusted : ℝ) ≤ 9000000000000000 := by exact_mod_cast hhigh
  have hlog0 := Real.log_nonneg hsig1r
  have hlog := Real.log_le_log (by linarith) hsig10r
  obtain ⟨hten2, hten⟩ := log_ten_bounds
  rw [log_eq_log_significand_add hx, abs_lt]
  constructor <;> nlinarith

theorem exists_ln_eq_some (hcomputed : Computed computeLn10 c.known.ln10)
    (hcounted : Counted c.known.ln10) (hdigits : c.digits + 40 < UInt32.size) (hrange : x.InRange)
    (hx : 0 < x.value) (hlog : 50 * 10 ^ (-(c.digits : ℤ)) ≤ |Real.log x.value|) :
    ∃ l : Decimal, x.ln c = some l ∧
      |(l.value : ℝ) - Real.log x.value| ≤
        10 ^ (-(c.digits : ℤ)) * (2 + 6 * |Real.log x.value|) := by
  obtain ⟨q, hq, hnear⟩ := exists_ln hcomputed hcounted hdigits hrange hx
  have hless := abs_log_lt hrange hx
  have hword : UInt32.size = 4294967296 := rfl
  have hmax : maxAdjusted = 9000000000000000 := rfl
  have hlast : (0 : ℝ) < 10 ^ (-(c.digits : ℤ)) := zpow_pos (by norm_num) _
  generalize Real.log x.value = L at *
  have hlow : |L| ≤ |(q : ℝ)| + 2 * 10 ^ (-(c.digits : ℤ)) := by
    have h := abs_sub_abs_le_abs_sub L q
    rw [abs_sub_comm] at h
    linarith
  have hhigh : |(q : ℝ)| ≤ |L| + 2 * 10 ^ (-(c.digits : ℤ)) := by
    have h := abs_sub_abs_le_abs_sub (q : ℝ) L
    linarith
  have hheld : 10 ^ (-maxAdjusted) ≤ |q| := by
    have hpow : (10 : ℝ) ^ (-maxAdjusted) ≤ 10 ^ (-(c.digits : ℤ)) :=
      zpow_le_zpow_right₀ (by norm_num) (by omega)
    exact ten_zpow_le_abs_cast_iff.mp (by linarith)
  have hbelow : |q| < 10 ^ maxAdjusted := by
    have hpow : (10 : ℝ) ^ (18 : ℤ) ≤ 10 ^ maxAdjusted :=
      zpow_le_zpow_right₀ (by norm_num) (by omega)
    norm_num at hpow hless
    exact abs_cast_lt_ten_zpow_iff.mp (by linarith)
  obtain ⟨r, -, hr, ho⟩ := hq
  rw [bounded_of_isRounding c.positive hr hbelow fun _ => hheld] at ho
  refine ⟨r, ho, ?_⟩
  have hround := hr.abs_cast_sub_le_mul
  rw [div_eq_mul_inv, ← zpow_natCast, ← zpow_neg] at hround
  generalize (10 : ℝ) ^ (-(c.digits : ℤ)) = u at *
  have hpart : 5 * |(q : ℝ)| * u ≤ 6 * |L| * u :=
    mul_le_mul_of_nonneg_right (by linarith [abs_nonneg L]) hlast.le
  linarith [abs_sub_le (r.value : ℝ) q L]

end DeskCalculator.Decimal
