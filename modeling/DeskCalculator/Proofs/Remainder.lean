import DeskCalculator.Proofs.Quotient

/-!
# The remainder of a truncating division

The remainder of two decimals is taken on a common exponent, where it is the remainder of two
natural numbers and has the sign of the dividend. Whichever of the two exponents is the lower one,
and also where the dividend is the remainder already, the operation rounds this one number once.
-/

set_option autoImplicit false

namespace DeskCalculator

open DeskCalculator.Natural DeskCalculator.Decimal

/-! ### Rational numbers -/

def integerPart (q : ℚ) : ℤ := if 0 ≤ q then ⌊q⌋ else ⌈q⌉

/-- What is left of `q` when as many whole `d` as there are in it are taken away. -/
def truncatedRemainder (q d : ℚ) : ℚ := q - integerPart (q / d) * d

theorem integerPart_neg (q : ℚ) : integerPart (-q) = -integerPart q := by
  unfold integerPart
  rcases lt_trichotomy q 0 with hq | rfl | hq
  · rw [if_pos (by linarith), if_neg (not_le.mpr hq), Int.floor_neg]
  · simp
  · rw [if_neg (by linarith), if_pos hq.le, Int.ceil_neg]

theorem truncatedRemainder_sign_mul {σ τ : ℤ} (hσ : σ = 1 ∨ σ = -1) (hτ : τ = 1 ∨ τ = -1)
    (q d : ℚ) : truncatedRemainder (σ * q) (τ * d) = σ * truncatedRemainder q d := by
  unfold truncatedRemainder
  rcases hσ with rfl | rfl <;> rcases hτ with rfl | rfl <;>
    simp only [Int.cast_one, Int.cast_neg, one_mul, neg_mul, neg_div, div_neg, neg_neg,
      integerPart_neg] <;>
    ring

theorem truncatedRemainder_of_nonneg {q d : ℚ} (hq : 0 ≤ q) (hd : 0 ≤ d) :
    truncatedRemainder q d = q - ⌊q / d⌋ * d := by
  rw [truncatedRemainder, integerPart, if_pos (div_nonneg hq hd)]

theorem exists_sign_mul_abs (q : ℚ) : ∃ σ : ℤ, (σ = 1 ∨ σ = -1) ∧ q = σ * |q| := by
  rcases le_total 0 q with hq | hq
  · exact ⟨1, .inl rfl, by rw [abs_of_nonneg hq, Int.cast_one, one_mul]⟩
  · exact ⟨-1, .inr rfl, by rw [abs_of_nonpos hq, Int.cast_neg, Int.cast_one, neg_one_mul, neg_neg]⟩

theorem truncatedRemainder_bounds (q : ℚ) {d : ℚ} (hd : d ≠ 0) :
    |truncatedRemainder q d| < |d| ∧ 0 ≤ truncatedRemainder q d * q := by
  obtain ⟨σ, hσ, hq⟩ := exists_sign_mul_abs q
  obtain ⟨τ, hτ, hd'⟩ := exists_sign_mul_abs d
  have hpos := abs_pos.mpr hd
  have hlow := Int.sub_floor_div_mul_nonneg |q| hpos
  have hupp := Int.sub_floor_div_mul_lt |q| hpos
  have hrem : truncatedRemainder q d = σ * (|q| - ⌊|q| / |d|⌋ * |d|) := by
    rw [← truncatedRemainder_of_nonneg (abs_nonneg q) (abs_nonneg d),
      ← truncatedRemainder_sign_mul hσ hτ, ← hq, ← hd']
  have hside := mul_nonneg hlow (abs_nonneg q)
  generalize |q| - ⌊|q| / |d|⌋ * |d| = r at *
  rcases hσ with rfl | rfl
  · rw [Int.cast_one, one_mul] at hrem hq
    rw [hrem, abs_of_nonneg hlow]
    exact ⟨hupp, hq ▸ hside⟩
  · rw [Int.cast_neg, Int.cast_one, neg_one_mul] at hrem hq
    rw [hrem, abs_neg, abs_of_nonneg hlow]
    refine ⟨hupp, ?_⟩
    rw [hq, neg_mul_neg]
    exact hside

theorem truncatedRemainder_natCast_mul (m n : ℕ) {u : ℚ} (hu : 0 < u) :
    truncatedRemainder (m * u) (n * u) = (m % n : ℕ) * u := by
  have hrem : ((m % n : ℕ) : ℚ) = m - (m / n : ℕ) * n := by
    rw [eq_sub_iff_add_eq, ← Nat.cast_mul, ← Nat.cast_add, mul_comm (m / n), Nat.mod_add_div]
  rw [truncatedRemainder_of_nonneg (by positivity) (by positivity), mul_div_mul_right _ _ hu.ne',
    Rat.floor_natCast_div_natCast, hrem, ← Int.natCast_div, Int.cast_natCast]
  ring

namespace Decimal

variable {x y : Decimal} {c : Context} {e : ℤ}

/-! ### Decimals on a common exponent -/

theorem value_eq_signFactor_mul_mantissaAt (he : e ≤ x.exponent) :
    x.value = x.signFactor * (x.mantissaAt e * 10 ^ e) := by
  rw [← abs_value_eq_mantissaAt he, abs_value]
  exact x.value_eq_signFactor_mul

theorem truncatedRemainder_eq (hx : e ≤ x.exponent) (hy : e ≤ y.exponent) :
    truncatedRemainder x.value y.value =
      x.signFactor * ((x.mantissaAt e % y.mantissaAt e : ℕ) * 10 ^ e) := by
  rw [value_eq_signFactor_mul_mantissaAt hx, value_eq_signFactor_mul_mantissaAt hy,
    truncatedRemainder_sign_mul x.signFactor_eq y.signFactor_eq,
    truncatedRemainder_natCast_mul _ _ (ten_zpow_pos e)]

theorem mantissaAt_exponent (x : Decimal) : x.mantissaAt x.exponent = x.mantissa.natAbs := by
  rw [mantissaAt, sub_self, Int.toNat_zero, tens_zero, Nat.mul_one]

theorem truncatedRemainder_of_le (h : y.exponent ≤ x.exponent) :
    truncatedRemainder x.value y.value = x.signFactor *
      ((x.mantissa.natAbs * powMod 10 (x.exponent - y.exponent).toNat y.mantissa.natAbs %
        y.mantissa.natAbs : ℕ) * 10 ^ y.exponent) := by
  rw [truncatedRemainder_eq h le_rfl, mantissaAt_exponent, mantissaAt, powMod_eq, Nat.mul_mod_mod]
  rfl

theorem truncatedRemainder_of_ge (h : x.exponent ≤ y.exponent) :
    truncatedRemainder x.value y.value = x.signFactor *
      ((x.mantissa.natAbs % (y.mantissa.natAbs * tens (y.exponent - x.exponent).toNat) : ℕ) *
        10 ^ x.exponent) := by
  rw [truncatedRemainder_eq le_rfl h, mantissaAt_exponent, mantissaAt]

theorem truncatedRemainder_of_abs_lt (h : |x.value| < |y.value|) :
    truncatedRemainder x.value y.value = x.value := by
  have hx := min_le_left x.exponent y.exponent
  have hy := min_le_right x.exponent y.exponent
  rw [abs_value_eq_mantissaAt hx, abs_value_eq_mantissaAt hy] at h
  have hlt : x.mantissaAt (min x.exponent y.exponent) <
      y.mantissaAt (min x.exponent y.exponent) := by
    exact_mod_cast lt_of_mul_lt_mul_right h (ten_zpow_pos _).le
  rw [truncatedRemainder_eq hx hy, Nat.mod_eq_of_lt hlt, ← value_eq_signFactor_mul_mantissaAt hx]

/-! ### The operation -/

theorem rounds_rem (hy : y.value ≠ 0) :
    Rounds c (truncatedRemainder x.value y.value) (x.rem y c) := by
  have hcut : ∀ (n : ℕ) (e : ℤ), Rounds c (x.signFactor * (n * 10 ^ e))
      (finish ((if x.isNegative then -1 else 1) * (n : ℤ)) e c) := by
    intro n e
    rw [← Int.cast_natCast, ← mul_assoc, ← Int.cast_mul]
    exact rounds_finish _ e
  rw [rem, if_neg (fun h => hy (isZero_iff.mp h))]
  by_cases hlt : |x.value| < |y.value|
  · have hcmp : x.abs.cmp y.abs = .lt := by
      rw [cmp_eq_compare_value, value_abs, value_abs]
      exact compare_lt_iff_lt.mpr hlt
    rw [if_pos hcmp, truncatedRemainder_of_abs_lt hlt]
    exact rounds_round x
  · have hcmp : x.abs.cmp y.abs ≠ .lt := by
      rw [cmp_eq_compare_value, value_abs, value_abs]
      exact fun h => hlt (compare_lt_iff_lt.mp h)
    rw [if_neg hcmp]
    simp only
    split
    · next hle =>
      rw [truncatedRemainder_of_le hle]
      exact hcut _ _
    · next hle =>
      rw [truncatedRemainder_of_ge (not_le.mp hle).le]
      exact hcut _ _

/-- The operation rounds the remainder of the truncating division once and holds it to the range.
The remainder is less than the divisor and has the sign of the dividend. A dividend below the
divisor, a power modulo the divisor and zeros behind the divisor all lead to this one number. -/
theorem rem_roundedOnce (c : Context) (x : Decimal) {y : Decimal} (hy : y.value ≠ 0) :
    let r := truncatedRemainder x.value y.value
    let a := x.mantissa.natAbs
    let b := y.mantissa.natAbs
    RoundedOnce c r (x.rem y c) ∧ |r| < |y.value| ∧ 0 ≤ r * x.value ∧
      (|x.value| < |y.value| → r = x.value) ∧
      (y.exponent ≤ x.exponent → r = x.signFactor *
        ((a * powMod 10 (x.exponent - y.exponent).toNat b % b : ℕ) * 10 ^ y.exponent)) ∧
      (x.exponent ≤ y.exponent → r = x.signFactor *
        ((a % (b * tens (y.exponent - x.exponent).toNat) : ℕ) * 10 ^ x.exponent)) := by
  obtain ⟨habs, hsign⟩ := truncatedRemainder_bounds x.value hy
  exact ⟨(rounds_rem hy).roundedOnce, habs, hsign, truncatedRemainder_of_abs_lt,
    truncatedRemainder_of_le, truncatedRemainder_of_ge⟩

theorem rem_roundedOnce_seven :
    let x : Decimal := ⟨-1, 100001, .inr (by decide)⟩
    let y : Decimal := ⟨7, 0, .inr (by decide)⟩
    let r := truncatedRemainder x.value y.value
    RoundedOnce (Context.ofDigits 28) r (x.rem y (Context.ofDigits 28)) ∧ |r| < |y.value| ∧
      0 ≤ r * x.value ∧ r = -5 := by
  intro x y r
  obtain ⟨hround, habs, hsign, -, hpower, -⟩ := rem_roundedOnce (Context.ofDigits 28) x (y := y)
    (by norm_num [y, value])
  have hfactor : x.signFactor = -1 := rfl
  have hmod : x.mantissa.natAbs * powMod 10 (x.exponent - y.exponent).toNat y.mantissa.natAbs %
      y.mantissa.natAbs = 5 := by decide +kernel
  refine ⟨hround, habs, hsign, (hpower (by decide)).trans ?_⟩
  rw [hmod, hfactor]
  norm_num [y]

/-- At either end of the range the remainder alone is rounded to a number that the operation does
not give: a remainder with its leading digit below the range comes out as zero, and one that is
carried above the range does not come out at all. -/
theorem rem_not_isRounding :
    let c := Context.ofDigits 28
    let a : Decimal := ⟨11, -9000000000000001, .inr (by decide)⟩
    let b : Decimal := ⟨1, -9000000000000000, .inr (by decide)⟩
    let nines : Decimal := ⟨10 ^ 29 - 1, 8999999999999972, .inr (by decide)⟩
    let longer : Decimal := ⟨10 ^ 30 - 1, 8999999999999971, .inr (by decide)⟩
    (a.InRange ∧ b.InRange ∧ b.value ≠ 0 ∧ a.rem b c = some zero ∧
      ¬IsRounding c.digits (truncatedRemainder a.value b.value) zero.value) ∧
    nines.InRange ∧ longer.InRange ∧ longer.value ≠ 0 ∧ nines.rem longer c = none := by
  intro c a b nines longer
  refine ⟨⟨by decide +kernel, by decide +kernel, ?_, by decide +kernel, fun h => ?_⟩,
    by decide +kernel, by decide +kernel, ?_, by decide +kernel⟩
  · exact fun h => absurd (value_eq_zero.mp h) (by decide)
  · have hrem : truncatedRemainder a.value b.value = 10 ^ (-9000000000000001 : ℤ) := by
      have hmod : a.mantissa.natAbs % (b.mantissa.natAbs * tens (b.exponent - a.exponent).toNat) =
          1 := by decide +kernel
      have hfactor : a.signFactor = 1 := rfl
      rw [truncatedRemainder_of_ge (by decide), hmod, hfactor, Int.cast_one, Nat.cast_one, one_mul,
        one_mul]
    have hle := h.ten_zpow_le_abs c.positive (e := -9000000000000001)
      (by rw [hrem, abs_of_pos (ten_zpow_pos _)])
    rw [value_zero, abs_zero] at hle
    exact absurd hle (not_le.mpr (ten_zpow_pos _))
  · exact fun h => absurd (value_eq_zero.mp h) (by decide)

end Decimal

end DeskCalculator
