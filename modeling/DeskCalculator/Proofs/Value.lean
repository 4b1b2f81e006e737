import DeskCalculator.Decimal.Rounding
import DeskCalculator.Proofs.Digits
import Mathlib

/-!
# The value of a decimal

A decimal stands for one rational number, and by its canonical form no other
decimal does. The exponent of its leading digit places the magnitude between two
neighbouring powers of ten.
-/

set_option autoImplicit false

namespace DeskCalculator.Decimal

open DeskCalculator.Natural

def value (x : Decimal) : ℚ := x.mantissa * 10 ^ x.exponent

theorem ten_zpow_pos (e : ℤ) : (0 : ℚ) < 10 ^ e := zpow_pos (by norm_num) e

theorem ten_zpow_add (d e : ℤ) : (10 : ℚ) ^ (d + e) = 10 ^ d * 10 ^ e :=
  zpow_add₀ (by norm_num) d e

theorem ten_zpow_le {d e : ℤ} : (10 : ℚ) ^ d ≤ 10 ^ e ↔ d ≤ e :=
  zpow_le_zpow_iff_right₀ (by norm_num)

theorem ten_zpow_lt {d e : ℤ} : (10 : ℚ) ^ d < 10 ^ e ↔ d < e :=
  zpow_lt_zpow_iff_right₀ (by norm_num)

theorem ten_zpow_eq_ten_mul (e : ℤ) : (10 : ℚ) ^ e = 10 * 10 ^ (e - 1) := by
  rw [← zpow_one_add₀ (by norm_num), add_sub_cancel]

theorem cast_tens_zpow (k : ℕ) : ((tens k : ℕ) : ℚ) = 10 ^ (k : ℤ) := by
  rw [cast_tens, zpow_natCast]

theorem ten_zpow_eq_mul {d e : ℤ} (h : d ≤ e) :
    (10 : ℚ) ^ e = ((tens (e - d).toNat : ℕ) : ℚ) * 10 ^ d := by
  have hn : (((e - d).toNat : ℕ) : ℤ) = e - d := Int.toNat_of_nonneg (by omega)
  rw [cast_tens_zpow, hn, ← ten_zpow_add, Int.sub_add_cancel]

theorem value_neg (x : Decimal) : (-x).value = -x.value := by
  show ((-x.mantissa : ℤ) : ℚ) * 10 ^ x.exponent = -(x.mantissa * 10 ^ x.exponent)
  push_cast
  ring

theorem value_zero : zero.value = 0 := by simp [value, zero]

theorem value_eq_zero {x : Decimal} : x.value = 0 ↔ x.mantissa = 0 := by
  simp [value, (ten_zpow_pos x.exponent).ne']

theorem natAbs_mantissa_pos {x : Decimal} (h : x.value ≠ 0) : 0 < x.mantissa.natAbs :=
  Int.natAbs_pos.mpr fun hm => h (value_eq_zero.mpr hm)

theorem isZero_iff {x : Decimal} : x.isZero = true ↔ x.value = 0 := by
  simp [isZero, value_eq_zero]

theorem isNegative_iff {x : Decimal} : x.isNegative = true ↔ x.value < 0 := by
  rw [isNegative, decide_eq_true_iff, value, mul_neg_iff]
  simp [ten_zpow_pos, not_lt_of_gt]

theorem abs_value (x : Decimal) : |x.value| = x.mantissa.natAbs * 10 ^ x.exponent := by
  rw [value, abs_mul, abs_of_pos (ten_zpow_pos _), Nat.cast_natAbs, Int.cast_abs]

theorem sign_mul_abs_value (x : Decimal) :
    (if x.isNegative then -1 else 1) * |x.value| = x.value := by
  split
  · next h => rw [abs_of_neg (isNegative_iff.mp h), neg_one_mul, neg_neg]
  · next h => rw [abs_of_nonneg (not_lt.mp fun hlt => h (isNegative_iff.mpr hlt)), one_mul]

theorem value_eq_mul {x : Decimal} {e : ℤ} (h : e ≤ x.exponent) :
    x.value = ((x.mantissa * tens (x.exponent - e).toNat : ℤ) : ℚ) * 10 ^ e := by
  rw [value, ten_zpow_eq_mul h]
  push_cast
  ring

theorem value_ofScaled (m e : ℤ) : (ofScaled m e).value = m * 10 ^ e := by
  by_cases hm : m = 0
  · simp [ofScaled, hm, value_zero]
  · have hd : ((tens (trailingZeros m.natAbs) : ℕ) : ℤ) ∣ m :=
      Int.natCast_dvd.mpr (tens_trailingZeros_dvd m.natAbs)
    rw [ofScaled, dif_neg hm]
    show ((m.tdiv (tens (trailingZeros m.natAbs)) : ℤ) : ℚ)
      * 10 ^ (e + (trailingZeros m.natAbs : ℕ)) = m * 10 ^ e
    have ht : (10 : ℚ) ^ ((trailingZeros m.natAbs : ℕ) : ℤ) = tens (trailingZeros m.natAbs) := by
      rw [zpow_natCast, tens_eq_pow]
      push_cast
      rfl
    have hq : ((m.tdiv (tens (trailingZeros m.natAbs)) : ℤ) : ℚ) * tens (trailingZeros m.natAbs)
        = m := by exact_mod_cast Int.tdiv_mul_cancel hd
    rw [ten_zpow_add, ht]
    calc _ = ((m.tdiv (tens (trailingZeros m.natAbs)) : ℤ) : ℚ) * tens (trailingZeros m.natAbs)
          * 10 ^ e := by ring
      _ = m * 10 ^ e := by rw [hq]

theorem value_ofInt (n : ℤ) : (ofInt n).value = n := by
  rw [ofInt, value_ofScaled, zpow_zero, mul_one]

theorem exponent_eq_zero {x : Decimal} (h : x.mantissa = 0) : x.exponent = 0 := by
  rcases x.canonical with ⟨-, he⟩ | hn
  · exact he
  · exact absurd (h ▸ Int.dvd_zero 10) hn

/-! ### The leading digit -/

theorem length_pos (x : Decimal) : 0 < x.length := digitCount_pos _

theorem length_eq_one {x : Decimal} (h : x.mantissa = 0) : x.length = 1 := by
  rw [length, h, Int.natAbs_zero, digitCount_zero]

theorem length_one : one.length = 1 := (digitCount_eq_iff (by decide)).mpr (by decide)

theorem adjusted_one : one.adjusted = 0 := by
  rw [adjusted, length_one]
  rfl

@[simp] theorem length_neg (x : Decimal) : (-x).length = x.length := by
  show digitCount (-x.mantissa).natAbs = digitCount x.mantissa.natAbs
  rw [Int.natAbs_neg]

@[simp] theorem adjusted_neg (x : Decimal) : (-x).adjusted = x.adjusted := by
  show x.exponent + (-x).length - 1 = x.exponent + x.length - 1
  rw [length_neg]

theorem inRange_neg {x : Decimal} (h : x.InRange) : (-x).InRange := by
  rcases h with h | h
  · exact Or.inl (Int.neg_eq_zero.mpr h)
  · exact Or.inr (by rwa [adjusted_neg])

theorem adjusted_eq (x : Decimal) : x.adjusted + 1 = x.exponent + x.length := by
  rw [adjusted]
  ring

theorem abs_value_lt (x : Decimal) : |x.value| < 10 ^ (x.adjusted + 1) := by
  have hlt : (x.mantissa.natAbs : ℚ) < tens x.length := by
    exact_mod_cast lt_tens_digitCount x.mantissa.natAbs
  rw [abs_value, adjusted_eq, ten_zpow_eq_mul (Int.le_add_of_nonneg_right (Int.natCast_nonneg _)),
    show (x.exponent + (x.length : ℤ) - x.exponent).toNat = x.length by omega]
  exact mul_lt_mul_of_pos_right hlt (ten_zpow_pos _)

theorem le_abs_value {x : Decimal} (hx : x.value ≠ 0) : 10 ^ x.adjusted ≤ |x.value| := by
  have hm : x.mantissa.natAbs ≠ 0 := by
    rw [Ne, value_eq_zero] at hx
    omega
  have hle : ((tens (x.length - 1) : ℕ) : ℚ) ≤ x.mantissa.natAbs := by
    exact_mod_cast tens_digitCount_le hm
  have hpos := x.length_pos
  rw [abs_value, ten_zpow_eq_mul (show x.exponent ≤ x.adjusted by rw [adjusted]; omega),
    show (x.adjusted - x.exponent).toNat = x.length - 1 by rw [adjusted]; omega]
  exact mul_le_mul_of_nonneg_right hle (ten_zpow_pos _).le

theorem adjusted_lt_iff {x : Decimal} (hx : x.value ≠ 0) {e : ℤ} :
    x.adjusted < e ↔ |x.value| < 10 ^ e :=
  ⟨fun h => (abs_value_lt x).trans_le (ten_zpow_le.mpr h),
    fun h => ten_zpow_lt.mp ((le_abs_value hx).trans_lt h)⟩

theorem eq_of_zpow_bounds {q : ℚ} {a b : ℤ} (ha : 10 ^ a ≤ q) (ha' : q < 10 ^ (a + 1))
    (hb : 10 ^ b ≤ q) (hb' : q < 10 ^ (b + 1)) : a = b := by
  have h1 := ten_zpow_lt.mp (ha.trans_lt hb')
  have h2 := ten_zpow_lt.mp (hb.trans_lt ha')
  omega

/-! ### The magnitude -/

theorem abs_of_isNegative {x : Decimal} (h : x.isNegative = true) : -x.abs = x := by
  rw [abs, if_pos h]
  exact Decimal.ext (Int.neg_neg _) rfl

theorem abs_of_not_isNegative {x : Decimal} (h : ¬x.isNegative = true) : x.abs = x := by
  rw [abs, if_neg h]

theorem value_abs (x : Decimal) : x.abs.value = |x.value| := by
  by_cases h : x.isNegative = true
  · rw [abs, if_pos h, value_neg, abs_of_neg (isNegative_iff.mp h)]
  · rw [abs_of_not_isNegative h, abs_of_nonneg (not_lt.mp fun hlt => h (isNegative_iff.mpr hlt))]

theorem inRange_abs {x : Decimal} (h : x.InRange) : x.abs.InRange := by
  unfold abs
  split
  · exact inRange_neg h
  · exact h

/-! ### Equal values -/

theorem exponent_le_of_value_eq {x y : Decimal} (h : x.value = y.value) (hx : x.value ≠ 0) :
    y.exponent ≤ x.exponent := by
  by_contra hlt
  rw [not_le] at hlt
  have hm : x.mantissa = y.mantissa * tens (y.exponent - x.exponent).toNat := by
    rw [value, value_eq_mul hlt.le] at h
    exact_mod_cast mul_right_cancel₀ (ten_zpow_pos x.exponent).ne' h
  have hd : (10 : ℤ) ∣ x.mantissa := by
    obtain ⟨k, hk⟩ : ∃ k, (y.exponent - x.exponent).toNat = k + 1 :=
      ⟨(y.exponent - x.exponent).toNat - 1, by omega⟩
    rw [hm, hk, tens_succ]
    push_cast
    exact Dvd.dvd.mul_left (Dvd.intro_left _ rfl) _
  rcases x.canonical with ⟨hz, -⟩ | hn
  · exact hx (value_eq_zero.mpr hz)
  · exact hn hd

theorem value_injective {x y : Decimal} (h : x.value = y.value) : x = y := by
  by_cases hx : x.value = 0
  · have hxm := value_eq_zero.mp hx
    have hym := value_eq_zero.mp (h ▸ hx)
    exact Decimal.ext (hxm.trans hym.symm)
      ((exponent_eq_zero hxm).trans (exponent_eq_zero hym).symm)
  · have he : x.exponent = y.exponent :=
      le_antisymm (exponent_le_of_value_eq h.symm (h ▸ hx)) (exponent_le_of_value_eq h hx)
    have hm := h
    rw [value, value, he] at hm
    exact Decimal.ext (by exact_mod_cast mul_right_cancel₀ (ten_zpow_pos _).ne' hm) he

theorem value_eq_iff {x y : Decimal} : x.value = y.value ↔ x = y :=
  ⟨value_injective, fun h => h ▸ rfl⟩

end DeskCalculator.Decimal
