import DeskCalculator.Decimal.Exponential
import DeskCalculator.Proofs.Accuracy
import DeskCalculator.Proofs.LogarithmOfTen
import DeskCalculator.Proofs.ScaledExponential

/-!
# The exponential of a decimal

The argument is taken with as many further digits as it has before its point, and so is the
logarithm of ten, of which there are no more multiples to take away than that. What is left is off by a few
units of the digits that are worked with. The kernel adds some thousand units for each digit, and
all of this stays far below the digits that are kept.
-/

set_option autoImplicit false

namespace DeskCalculator.Decimal

open DeskCalculator.Natural DeskCalculator.FixedPoint

variable {c : Context} {x v : Decimal} {w : ℕ}

/-! ### Multiples of the logarithm of ten -/

theorem exists_decades (scaled : ℤ) {ln10 : ℤ} (hln10 : 0 < ln10) : ∃ k : ℤ,
    (if scaled - scaled.tdiv ln10 * ln10 < 0 then scaled.tdiv ln10 - 1 else scaled.tdiv ln10) = k ∧
      0 ≤ scaled - k * ln10 ∧ scaled - k * ln10 < ln10 := by
  have hmod := Int.mul_tdiv_add_tmod scaled ln10
  have hlow := Int.lt_tmod_of_pos scaled hln10
  have hhigh := Int.tmod_lt_of_pos scaled hln10
  rw [mul_comm] at hmod
  generalize scaled.tdiv ln10 = n at *
  generalize scaled.tmod ln10 = r at *
  split
  · exact ⟨n - 1, rfl, by linarith, by linarith⟩
  · exact ⟨n, rfl, by linarith, by linarith⟩

section

variable {ln10 scaled k A S T : ℝ} (hS : 10 ^ 10 ≤ S) (hT : 1 ≤ T)
  (hln10 : |ln10 - Real.log 10 * (S * T)| ≤ 10) (hrest0 : 0 ≤ scaled - k * ln10)
  (hrest : scaled - k * ln10 < ln10)

include hS hT hln10

theorem ln10_bounds : 2 * (S * T) ≤ ln10 + 10 ∧ ln10 ≤ 3 * S * T := by
  have hST : (10 : ℝ) ^ 10 ≤ S * T := by nlinarith
  obtain ⟨hlow, hhigh⟩ := log_ten_bounds
  have hlow' := mul_le_mul_of_nonneg_right hlow.le (by linarith : 0 ≤ S * T)
  have hhigh' := mul_le_mul_of_nonneg_right hhigh.le (by linarith : 0 ≤ S * T)
  obtain ⟨h1, h2⟩ := abs_le.mp hln10
  constructor <;> linarith

include hrest0 hrest

theorem abs_decades_le (hscaled : |scaled| ≤ T * (S * T)) : |k| ≤ T + 1 := by
  obtain ⟨hlow, -⟩ := ln10_bounds hS hT hln10
  have hST : (10 : ℝ) ^ 10 ≤ S * T := by nlinarith
  have hpos : 0 < ln10 := by linarith
  obtain ⟨h1, h2⟩ := abs_le.mp hscaled
  have hfit : T * (S * T) ≤ T * ln10 := mul_le_mul_of_nonneg_left (by linarith) (by linarith)
  rw [abs_le]
  constructor <;> refine le_of_mul_le_mul_right ?_ hpos <;> linarith

theorem abs_remainder_sub_le (hscaled : |scaled| ≤ T * (S * T)) (hA : |scaled - A * (S * T)| < 1) :
    |scaled - k * ln10 - (A - k * Real.log 10) * S * T| ≤ 21 * T := by
  have hcount := abs_decades_le hS hT hln10 hrest0 hrest hscaled
  have hoff : |k * (ln10 - Real.log 10 * (S * T))| ≤ |k| * 10 := by
    rw [abs_mul]
    exact mul_le_mul_of_nonneg_left hln10 (abs_nonneg k)
  calc |scaled - k * ln10 - (A - k * Real.log 10) * S * T|
      = |scaled - A * (S * T) - k * (ln10 - Real.log 10 * (S * T))| := by ring_nf
    _ ≤ |scaled - A * (S * T)| + |k * (ln10 - Real.log 10 * (S * T))| := abs_sub _ _
    _ ≤ 21 * T := by linarith

end

theorem fitsWord_of_abs_le {k : ℤ} (h : |(k : ℝ)| ≤ 10 ^ 18) : FitsWord k := by
  have hbound : |k| ≤ 10 ^ 18 := by exact_mod_cast h
  obtain ⟨h1, h2⟩ := abs_le.mp hbound
  exact ⟨by omega, by omega⟩

/-- What is left of the argument, and the power of ten that it stands for, up to some units. -/
theorem exists_remainder (hcomputed : Computed computeLn10 c.known.ln10)
    (hquotient : c.known.ln10Digits (c.digits + guardDigits + x.integerDigits) ≠ 0)
    (hdigits : c.digits + 50 < UInt32.size) (hx : x.value ≠ 0) (hadjusted : x.adjusted < 17) :
    ∃ k rest : ℤ, x.exp c =
        finish (FixedPoint.exp rest (c.digits + guardDigits)) (k - (c.digits + guardDigits : ℕ)) c ∧
      0 ≤ rest ∧ (rest : ℝ) ≤ 3 * 10 ^ (c.digits + guardDigits) ∧
      |(rest : ℝ) - (x.value - k * Real.log 10) * 10 ^ (c.digits + guardDigits)| ≤ 22 := by
  have hguard : guardDigits = 10 := rfl
  have hextra : extraDigits = 10 := rfl
  have hword : UInt32.size = 4294967296 := rfl
  have hwhole := integerDigits_le_of_adjusted_lt (n := 17) hadjusted
  have hw : 10 ≤ c.digits + guardDigits := by omega
  have hlog := abs_ln10Digits_sub_le hcomputed (by omega) hquotient
  have hscaled := abs_toScaled_sub_lt (x := x) (w := c.digits + guardDigits + x.integerDigits)
    (by omega)
  have hmagnitude := abs_toScaled_le (x := x) (w := c.digits + guardDigits + x.integerDigits)
    (by omega)
  have hvalue : |(x.value : ℝ)| < tens x.integerDigits := by exact_mod_cast abs_value_lt_tens x
  have hS : (10 : ℝ) ^ 10 ≤ 10 ^ (c.digits + guardDigits) := pow_le_pow_right₀ (by norm_num) hw
  have hT0 := tens_pos x.integerDigits
  have hT1 : (1 : ℝ) ≤ tens x.integerDigits := by exact_mod_cast hT0
  have hT17 : ((tens x.integerDigits : ℕ) : ℝ) ≤ 10 ^ 17 := by
    rw [cast_tens]
    exact pow_le_pow_right₀ (by norm_num) hwhole
  have hpow : (10 : ℝ) ^ (c.digits + guardDigits + x.integerDigits) =
      10 ^ (c.digits + guardDigits) * tens x.integerDigits := by
    rw [pow_add _ (c.digits + guardDigits), cast_tens]
  rw [exp, if_neg (fun h => hx (isZero_iff.mp h)), if_neg (not_le.mpr hadjusted)]
  simp only
  rw [hpow] at hlog hscaled hmagnitude
  generalize c.known.ln10Digits _ = ln10 at *
  generalize x.toScaled _ = scaled at *
  generalize tens x.integerDigits = T at *
  generalize (10 : ℝ) ^ (c.digits + guardDigits) = S at *
  obtain ⟨hlow, hhigh⟩ := ln10_bounds hS hT1 hlog
  have hpos : 0 < ln10 := by
    have h : (0 : ℝ) < ln10 := by nlinarith
    exact_mod_cast h
  obtain ⟨k, hk, hrest0, hrest⟩ := exists_decades scaled hpos
  have hrest0r : (0 : ℝ) ≤ scaled - k * ln10 := by exact_mod_cast hrest0
  have hrestr : (scaled : ℝ) - k * ln10 < ln10 := by exact_mod_cast hrest
  have hfit : |(scaled : ℝ)| ≤ T * (S * T) :=
    hmagnitude.trans (mul_le_mul_of_nonneg_right hvalue.le (by nlinarith))
  have hcount := abs_decades_le hS hT1 hlog hrest0r hrestr hfit
  have hoff := abs_remainder_sub_le hS hT1 hlog hrest0r hrestr hfit hscaled
  rw [hk, if_pos (fitsWord_of_abs_le (by linarith))]
  have hTpos : (0 : ℝ) < T := by linarith
  refine ⟨k, _, rfl, Int.tdiv_nonneg hrest0 (Int.natCast_nonneg _), ?_, ?_⟩
  · refine (le_abs_self _).trans ((abs_tdiv_le _ T).trans ((div_le_iff₀ hTpos).mpr ?_))
    push_cast
    rw [abs_of_nonneg hrest0r]
    exact hrestr.le.trans hhigh
  · have h := abs_tdiv_sub_le hT0 (z := scaled - k * ln10) (by push_cast; exact hoff)
    rw [mul_div_cancel_right₀ _ hTpos.ne'] at h
    linarith

/-! ### The kernel at what is left -/

theorem abs_kernel_sub_le {rest : ℤ} {ξ : ℝ} (hw : 10 ≤ w) (hsize : w < UInt32.size)
    (h0 : 0 ≤ rest) (hrest : (rest : ℝ) ≤ 3 * 10 ^ w) (hξ : |(rest : ℝ) - ξ * 10 ^ w| ≤ 22) :
    |(FixedPoint.exp rest w : ℝ) - 10 ^ w * Real.exp ξ| ≤ 8192 * (w + 9) * Real.exp ξ := by
  have hscale : ((powerOfTen w : ℕ) : ℝ) = 10 ^ w := by
    rw [powerOfTen_eq w hsize, cast_tens]
  have hfit : rest ≤ 3 * powerOfTen w := by
    have h : (rest : ℝ) ≤ 3 * powerOfTen w := hscale ▸ hrest
    exact_mod_cast h
  obtain ⟨hhigh, hlow⟩ := exp_bounds h0 hfit
  have hS : (10 : ℝ) ^ 10 ≤ 10 ^ w := pow_le_pow_right₀ (by norm_num) hw
  rw [hscale] at hhigh hlow
  generalize (10 : ℝ) ^ w = S at *
  have hSpos : 0 < S := by linarith
  have hnear : |rest / S - ξ| ≤ 22 / S := by
    rw [show rest / S - ξ = (rest - ξ * S) / S by field_simp, abs_div, abs_of_pos hSpos]
    exact div_le_div_of_nonneg_right hξ hSpos.le
  have hsmall : 22 / S ≤ 1 / 2 := by
    rw [div_le_iff₀ hSpos]
    linarith
  have hpos := Real.exp_pos ξ
  have hunits : S * (22 / S) = 22 := mul_div_cancel₀ _ hSpos.ne'
  -- the exponential as a part of that of the exact remainder
  have hsplit : Real.exp (rest / S) = Real.exp ξ * Real.exp (rest / S - ξ) := by
    rw [← Real.exp_add, add_sub_cancel]
  have hoff := abs_le.mp (Real.abs_exp_sub_one_le (hnear.trans (hsmall.trans (by norm_num))))
  rw [hsplit] at hhigh hlow
  generalize Real.exp (rest / S - ξ) = t at *
  generalize rest / S - ξ = d at *
  have htwo : Real.exp ξ * t ≤ Real.exp ξ * 2 := mul_le_mul_of_nonneg_left (by linarith) hpos.le
  have habove : S * (t - 1) ≤ 44 := by nlinarith
  have hbelow : -44 ≤ S * (t - 1) := by nlinarith
  have habove' := mul_le_mul_of_nonneg_left habove hpos.le
  have hbelow' := mul_le_mul_of_nonneg_left hbelow hpos.le
  have hmissing := mul_le_mul_of_nonneg_left htwo (by positivity : (0 : ℝ) ≤ 4096 * (w + 8))
  have hdigits : 0 ≤ (w : ℝ) * Real.exp ξ := by positivity
  rw [abs_le]
  constructor <;> linarith

theorem exp_eq_ten_zpow_mul (A : ℝ) (k : ℤ) :
    Real.exp A = 10 ^ k * Real.exp (A - k * Real.log 10) := by
  have hten : Real.exp (k * Real.log 10) = 10 ^ k := by
    rw [← Real.log_zpow, Real.exp_log (zpow_pos (by norm_num) k)]
  rw [← hten, ← Real.exp_add, add_sub_cancel]

theorem abs_scaled_kernel_sub_le {rest k : ℤ} (hw : 10 ≤ w) (hsize : w < UInt32.size)
    (h0 : 0 ≤ rest) (hrest : (rest : ℝ) ≤ 3 * 10 ^ w) {A : ℝ}
    (hA : |(rest : ℝ) - (A - k * Real.log 10) * 10 ^ w| ≤ 22) :
    |(((FixedPoint.exp rest w : ℚ) * 10 ^ (k - w) : ℚ) : ℝ) - Real.exp A| ≤
      8192 * (w + 9) / 10 ^ w * Real.exp A := by
  have hkernel := abs_kernel_sub_le hw hsize h0 hrest hA
  have hpos : (0 : ℝ) < 10 ^ (k - w : ℤ) := zpow_pos (by norm_num) _
  have hpow : (10 : ℝ) ^ k = 10 ^ (k - w : ℤ) * 10 ^ w := by
    rw [← zpow_natCast, ← zpow_add₀ (by norm_num), sub_add_cancel]
  have hcancel : 8192 * (w + 9) / 10 ^ w * ((10 : ℝ) ^ k * Real.exp (A - k * Real.log 10)) =
      10 ^ (k - w : ℤ) * (8192 * (w + 9) * Real.exp (A - k * Real.log 10)) := by
    rw [hpow]
    field_simp
  push_cast
  rw [exp_eq_ten_zpow_mul A k, hcancel, hpow, mul_assoc, mul_comm _ ((10 : ℝ) ^ (k - w : ℤ)),
    ← mul_sub, abs_mul, abs_of_pos hpos]
  exact mul_le_mul_of_nonneg_left hkernel hpos.le

/-! ### The exponential -/

/-- The exponential is off by six units, at most, in the first digit that is not kept, unless it
vanishes, whatever digits of the logarithm of ten were asked for before. Where no digit of it is
known or computed there is nothing to divide by. -/
theorem abs_exp_sub_le (hcomputed : Computed computeLn10 c.known.ln10)
    (hquotient : c.known.ln10Digits (c.digits + guardDigits + x.integerDigits) ≠ 0)
    (hdigits : c.digits ≤ 1000) (h : x.exp c = some v) (hv : v.value ≠ 0) :
    |(v.value : ℝ) - Real.exp x.value| ≤ 6 * 10 ^ (-(c.digits : ℤ)) * Real.exp x.value := by
  by_cases hx : x.value = 0
  · rw [exp, if_pos (isZero_iff.mpr hx), Option.some_inj] at h
    rw [← h, value_one, hx, Rat.cast_one, Rat.cast_zero, Real.exp_zero, sub_self, abs_zero]
    positivity
  have hadjusted : x.adjusted < 17 := by
    by_contra hlarge
    rw [exp, if_neg (fun h => hx (isZero_iff.mp h)), if_pos (not_lt.mp hlarge)] at h
    split at h
    · cases h
      exact hv value_zero
    · cases h
  have hguard : guardDigits = 10 := rfl
  have hword : UInt32.size = 4294967296 := rfl
  obtain ⟨k, rest, heq, h0, hrest, hA⟩ :=
    exists_remainder hcomputed hquotient (by omega) hx hadjusted
  have hnear := abs_scaled_kernel_sub_le (by omega) (by omega) h0 hrest hA
  have hrounds := rounds_finish (c := c) (FixedPoint.exp rest (c.digits + guardDigits))
    (k - (c.digits + guardDigits : ℕ))
  rw [← heq, h] at hrounds
  have hpos := Real.exp_pos (x.value : ℝ)
  have hresult := hrounds.abs_sub_le_of_near (ρ := Real.exp x.value) (hnear.trans ?_) hv
  · rwa [abs_of_pos hpos] at hresult
  · rw [abs_of_pos hpos]
    refine mul_le_mul_of_nonneg_right ?_ hpos.le
    have hp : (c.digits : ℝ) ≤ 1000 := by exact_mod_cast hdigits
    rw [hguard, pow_add, zpow_neg, zpow_natCast]
    push_cast
    rw [div_le_iff₀ (by positivity)]
    field_simp
    linarith

theorem abs_exp_sub_le_cached :
    let c : Context :=
      { digits := 5, positive := by decide, known := { ln10 := afterRequests computeLn10 [40] } }
    let x : Decimal := ⟨-25, -1, .inr (by decide)⟩
    let power : Decimal := ⟨82085, -6, .inr (by decide)⟩
    x.exp c = some power ∧
      |(power.value : ℝ) - Real.exp x.value| ≤ 6 * 10 ^ (-5 : ℤ) * Real.exp x.value := by
  intro c x power
  have hscaled : x.toScaled (15 + x.integerDigits) = -25000000000000000 := by
    decide +kernel
  have hln10 : c.known.ln10Digits (15 + x.integerDigits) = 23025850929940456 := by decide +kernel
  have hterms : exponentialTerms 513957564938 1000000000000000 =
      [1000000000000000, 513957564938, 132076189, 22627, 2] := by cbv
  have hkernel : FixedPoint.exp 2105170185988091 15 = 8208499862311050 := by
    have hscale : powerOfTen 15 = 1000000000000000 := by decide +kernel
    have hpart : (2105170185988091 : ℤ).tdiv (Nat.pow 2 halvings) = 513957564938 := by
      decide +kernel
    have habs : (513957564938 : ℤ).natAbs = 513957564938 := rfl
    simp only [FixedPoint.exp, hscale, hpart, habs, hterms]
    decide +kernel
  have hpower : x.exp c = some power := by
    have hdigits : c.digits + guardDigits = 15 := rfl
    have hdecades : (if (-25000000000000000 : ℤ) - Int.tdiv (-25000000000000000) 23025850929940456 *
        23025850929940456 < 0 then Int.tdiv (-25000000000000000) 23025850929940456 - 1
        else Int.tdiv (-25000000000000000) 23025850929940456) = -2 := by decide +kernel
    have hrest : Int.tdiv (-25000000000000000 - -2 * 23025850929940456)
        (tens x.integerDigits : ℕ) = 2105170185988091 := by decide +kernel
    rw [exp, if_neg (by decide +kernel), if_neg (by decide +kernel)]
    simp only [hscaled, hln10, hdecades, hrest, hdigits, hkernel]
    decide +kernel
  exact ⟨hpower, abs_exp_sub_le (c := c) (computed_afterRequests computeLn10 [40])
    (by decide +kernel) (by decide) hpower (by decide +kernel)⟩

end DeskCalculator.Decimal
