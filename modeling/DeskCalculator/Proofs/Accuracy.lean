import DeskCalculator.Proofs.Approximation
import DeskCalculator.Proofs.Quotient

/-!
# Errors of single operations

A number that is rounded and held to the range is off by half a unit of its last digit, or by the
least magnitude of the range where it falls below that. Scaling a number to an integer drops less
than one unit.
-/

set_option autoImplicit false

namespace DeskCalculator

open DeskCalculator.Natural DeskCalculator.FixedPoint

namespace Decimal

variable {c : Context} {q : ℚ} {o : Option Decimal}

theorem Rounds.exists_value (h : Rounds c q o) (hq : |q| < 10 ^ maxAdjusted) :
    ∃ v : Decimal, o = some v ∧
      (IsRounding c.digits q v.value ∨ |v.value - q| ≤ 10 ^ (-maxAdjusted)) := by
  obtain ⟨r, -, hr, rfl⟩ := h
  have hlt : |r.value| < 10 ^ (maxAdjusted + 1) :=
    (hr.abs_le_ten_zpow hq).trans_lt (ten_zpow_lt.mpr (by omega))
  by_cases hlow : |r.value| < 10 ^ (-maxAdjusted)
  · refine ⟨zero, bounded?_eq_some_iff.mpr ⟨hlt, by rw [if_pos hlow, value_zero]⟩, .inr ?_⟩
    rw [value_zero, zero_sub, abs_neg]
    exact (not_le.mp fun hle => absurd (hr.ten_zpow_le_abs c.positive hle) (not_le.mpr hlow)).le
  · exact ⟨r, bounded?_eq_some_iff.mpr ⟨hlt, by rw [if_neg hlow]⟩, .inl hr⟩

end Decimal

namespace IsRounding

open Decimal

variable {digits : ℕ} {q r : ℚ}

theorem abs_cast_sub_le (h : IsRounding digits q r) (hq : |q| < 10) :
    |(r : ℝ) - q| ≤ 5 / 10 ^ digits := by
  have hoff := h.abs_sub_le (e := 1) (by rwa [zpow_one])
  rw [sub_eq_add_neg 1 (digits : ℤ), ten_zpow_add, zpow_one, zpow_neg, zpow_natCast,
    abs_sub_comm] at hoff
  have hreal := (Rat.cast_le (K := ℝ)).mpr hoff
  push_cast at hreal
  refine hreal.trans_eq ?_
  ring

theorem abs_cast_sub_le_mul (h : IsRounding digits q r) :
    |(r : ℝ) - q| ≤ 5 * |(q : ℝ)| / 10 ^ digits := by
  have hoff := h.abs_sub_le_mul
  rw [sub_eq_add_neg 1 (digits : ℤ), ten_zpow_add, zpow_one, zpow_neg, zpow_natCast,
    abs_sub_comm] at hoff
  have hreal := (Rat.cast_le (K := ℝ)).mpr hoff
  push_cast at hreal
  refine hreal.trans_eq ?_
  ring

end IsRounding

namespace Decimal

/-- What is rounded is off by far less than the last digit kept, so the result is not off by much
more than the rounding. -/
theorem Rounds.abs_sub_le_of_near {c : Context} {q : ℚ} {v : Decimal} {ρ : ℝ}
    (hρ : |(q : ℝ) - ρ| ≤ 10 ^ (-(c.digits : ℤ)) / 1000 * |ρ|) (h : Rounds c q (some v))
    (hv : v.value ≠ 0) : |(v.value : ℝ) - ρ| ≤ 6 * 10 ^ (-(c.digits : ℤ)) * |ρ| := by
  obtain ⟨r, -, hr, ho⟩ := h
  obtain rfl : r = v := by
    rcases inRange_of_bounded ho.symm with ⟨rfl, -⟩ | rfl
    · rfl
    · exact absurd value_zero hv
  have hround := hr.abs_cast_sub_le_mul
  have hpos : (0 : ℝ) < 10 ^ (-(c.digits : ℤ)) := zpow_pos (by norm_num) _
  have hone : (10 : ℝ) ^ (-(c.digits : ℤ)) ≤ 1 := zpow_le_one_of_nonpos₀ (by norm_num) (by omega)
  rw [div_eq_mul_inv, ← zpow_natCast, ← zpow_neg] at hround
  generalize (10 : ℝ) ^ (-(c.digits : ℤ)) = d at *
  have hq : |(q : ℝ)| ≤ 2 * |ρ| / 1000 + |ρ| := by
    have htriangle := abs_sub_abs_le_abs_sub (q : ℝ) ρ
    nlinarith [abs_nonneg ρ]
  calc |(r.value : ℝ) - ρ| ≤ |(r.value : ℝ) - q| + |(q : ℝ) - ρ| := abs_sub_le _ _ _
    _ ≤ 5 * (2 * |ρ| / 1000 + |ρ|) * d + d / 1000 * |ρ| := by
        refine add_le_add (hround.trans ?_) hρ
        exact mul_le_mul_of_nonneg_right (mul_le_mul_of_nonneg_left hq (by norm_num)) hpos.le
    _ ≤ 6 * d * |ρ| := by nlinarith [mul_nonneg hpos.le (abs_nonneg ρ)]

/-! ### Scaled integers -/

theorem cast_scaled (m : ℤ) (w : ℕ) : (((m : ℚ) * 10 ^ (-(w : ℤ)) : ℚ) : ℝ) = m / 10 ^ w := by
  rw [zpow_neg, zpow_natCast, ← div_eq_mul_inv]
  push_cast
  rfl

theorem abs_value_lt_tens (x : Decimal) : |x.value| < tens x.integerDigits := by
  refine (abs_value_lt x).trans_le ?_
  rw [cast_tens_zpow, ten_zpow_le, integerDigits]
  omega

theorem integerDigits_le_of_adjusted_lt {x : Decimal} {n : ℕ} (h : x.adjusted < n) :
    x.integerDigits ≤ n := by
  rw [integerDigits]
  omega

theorem integerDigits_le {x : Decimal} {n : ℕ} (hn : 0 < n) (h : |(x.value : ℝ)| < 10 ^ n) :
    x.integerDigits ≤ n := by
  rw [integerDigits]
  by_cases hx : x.value = 0
  · have hm := value_eq_zero.mp hx
    rw [adjusted, length_eq_one hm, exponent_eq_zero hm]
    omega
  · have hlt : |x.value| < 10 ^ (n : ℤ) := by
      rw [zpow_natCast]
      exact_mod_cast h
    have hadjusted := (adjusted_lt_iff hx).mpr hlt
    omega

variable {x : Decimal} {w : ℕ} (hsize : w + x.integerDigits < UInt32.size)

include hsize

theorem toScaled_eq : x.value * 10 ^ w = x.toScaled w ∨
    x.toScaled w = 0 ∧ |x.value * 10 ^ w| < 1 ∨
    ∃ cut : ℕ, x.value * 10 ^ w = x.mantissa / tens cut ∧
      x.toScaled w = x.mantissa.tdiv (tens cut) := by
  have hvalue : x.value * 10 ^ w = x.mantissa * 10 ^ (x.exponent + w) := by
    rw [value, mul_assoc, ten_zpow_add, zpow_natCast]
  have hdigits : x.exponent ≤ x.integerDigits := by
    have hlength := x.length_pos
    rw [integerDigits, adjusted]
    omega
  unfold toScaled
  simp only
  split
  · next hshift =>
    left
    rw [powerOfTen_eq _ (by omega), hvalue, ten_zpow_eq_mul hshift, zpow_zero, mul_one, sub_zero]
    push_cast
    rfl
  · next hshift =>
    right
    split
    · next hlow =>
      left
      refine ⟨rfl, ?_⟩
      have hpos : (0 : ℚ) < 10 ^ w := by positivity
      have hlt := mul_lt_mul_of_pos_right (abs_value_lt x) hpos
      rw [← abs_of_pos hpos, ← abs_mul, abs_of_pos hpos, ← zpow_natCast 10 w, ← ten_zpow_add] at hlt
      refine (zpow_natCast (10 : ℚ) w ▸ hlt).trans_le ?_
      rw [← zpow_zero (10 : ℚ), ten_zpow_le, adjusted_eq]
      omega
    · right
      refine ⟨(-(x.exponent + (w : ℤ))).toNat, ?_, rfl⟩
      have hpow := ten_zpow_eq_mul (show x.exponent + w ≤ 0 by omega)
      rw [zpow_zero, zero_sub] at hpow
      have hne : ((tens (-(x.exponent + (w : ℤ))).toNat : ℕ) : ℚ) ≠ 0 := by
        exact_mod_cast (tens_pos _).ne'
      rw [hvalue, eq_div_iff hne, mul_assoc, mul_comm _ ((tens _ : ℕ) : ℚ), ← hpow, mul_one]

theorem abs_toScaled_sub_lt : |(x.toScaled w : ℝ) - x.value * 10 ^ w| < 1 := by
  rcases toScaled_eq hsize with h | ⟨h, hlt⟩ | ⟨cut, h, hcut⟩
  · have hr : (x.value : ℝ) * 10 ^ w = x.toScaled w := by exact_mod_cast h
    rw [hr, sub_self, abs_zero]
    exact one_pos
  · rw [h, Int.cast_zero, zero_sub, abs_neg]
    exact_mod_cast hlt
  · have hr : (x.value : ℝ) * 10 ^ w = x.mantissa / tens cut := by exact_mod_cast h
    rw [hr, hcut]
    exact abs_tdiv_sub_lt _ (tens_pos cut)

theorem abs_toScaled_le : |(x.toScaled w : ℝ)| ≤ |(x.value : ℝ)| * 10 ^ w := by
  have hpos : (0 : ℝ) < 10 ^ w := by positivity
  rw [← abs_of_pos hpos, ← abs_mul]
  rcases toScaled_eq hsize with h | ⟨h, -⟩ | ⟨cut, h, hcut⟩
  · have hr : (x.value : ℝ) * 10 ^ w = x.toScaled w := by exact_mod_cast h
    rw [hr]
  · rw [h, Int.cast_zero, abs_zero]
    exact abs_nonneg _
  · have hr : (x.value : ℝ) * 10 ^ w = x.mantissa / tens cut := by exact_mod_cast h
    rw [hr, hcut, abs_div, Nat.abs_cast]
    exact abs_tdiv_le _ _

end Decimal

end DeskCalculator
