import DeskCalculator.FixedPoint.Constants
import DeskCalculator.FixedPoint.Exponential
import DeskCalculator.Proofs.Digits

/-!
# Bounds on truncated series

The terms of an alternating series in inverse powers fall, so its sum lies between zero and the
first term. The terms of a factorial series at a small argument are halved at each step, so what
follows a term adds up to at most that term. Both hold of the truncated terms as well, which
bounds the digits of the circle constant and of the base of the natural logarithm.
-/

set_option autoImplicit false

namespace DeskCalculator.FixedPoint

open DeskCalculator.Natural

theorem powerOfTen_le_tens (n : ℕ) : powerOfTen n ≤ tens n := tens_le_tens (Nat.mod_le _ _)

theorem alternating_inverseTerms (q : ℕ) (positive : 0 < q) (scale power k : ℕ) :
    0 ≤ alternating (inverseTerms q positive scale power k) ∧
      alternating (inverseTerms q positive scale power k) ≤ (scale / (power * (2 * k + 1)) : ℕ) := by
  induction power, k using inverseTerms.induct q positive scale with
  | case1 power k term last =>
    rw [inverseTerms, dif_pos last]
    exact ⟨le_refl 0, Int.natCast_nonneg _⟩
  | case2 power k term last ih =>
    rw [inverseTerms, dif_neg last]
    have hpower : 0 < power := by
      rcases Nat.eq_zero_or_pos power with rfl | hpos
      · simp [term] at last
      · exact hpos
    have hfalls : scale / (power * (q * q) * (2 * (k + 1) + 1)) ≤ term := by
      refine Nat.div_le_div_left ?_ (by positivity)
      have hle : power ≤ power * (q * q) := Nat.le_mul_of_pos_right _ (by positivity)
      exact Nat.mul_le_mul hle (by omega)
    have hrest := ih.2.trans (Int.ofNat_le.mpr hfalls)
    simp only [alternating]
    exact ⟨by omega, by omega⟩

/-- What follows a term adds up to at most that term. -/
theorem total_factorialTerms_le {ratio scale : ℕ} (hsmall : 2 * ratio ≤ scale) (divisor : ℕ → ℕ)
    (grows : ∀ n, n ≤ divisor n) (n t : ℕ) :
    total (factorialTerms ratio scale divisor grows n t) ≤ t := by
  induction n, t using factorialTerms.induct ratio scale divisor grows with
  | case1 n t next last =>
    rw [factorialTerms, dif_pos last]
    exact Nat.zero_le t
  | case2 n t next last ih =>
    rw [factorialTerms, dif_neg last]
    have hhalf : 2 * next ≤ t := by
      calc 2 * next ≤ 2 * (t * ratio / scale) := Nat.mul_le_mul_left 2 (Nat.div_le_self _ _)
        _ ≤ 2 * (t * ratio) / scale := Nat.mul_div_le_mul_div_assoc 2 _ scale
        _ ≤ t := by
          refine Nat.div_le_of_le_mul ?_
          calc 2 * (t * ratio) = t * (2 * ratio) := by ring
            _ ≤ t * scale := Nat.mul_le_mul_left t hsmall
            _ = scale * t := Nat.mul_comm t scale
    calc total (next :: factorialTerms ratio scale divisor grows (n + 1) next)
        ≤ next + next := Nat.add_le_add_left ih next
      _ ≤ t := by omega

theorem squareTimes_le {scale : ℕ} (hs : 0 < scale) (n : ℕ) {b : ℕ} {x : ℤ} (h0 : 0 ≤ x)
    (h : x ≤ b * scale) : 0 ≤ squareTimes scale n x ∧
      squareTimes scale n x ≤ (b ^ 2 ^ n : ℕ) * scale := by
  induction n generalizing b x with
  | zero => simpa [squareTimes] using ⟨h0, h⟩
  | succ n ih =>
    have hscale : (0 : ℤ) < scale := by exact_mod_cast hs
    have hsquare : 0 ≤ (x * x).tdiv scale ∧ (x * x).tdiv scale ≤ ((b * b : ℕ) : ℤ) * scale := by
      rw [Int.tdiv_eq_ediv_of_nonneg (mul_nonneg h0 h0)]
      refine ⟨Int.ediv_nonneg (mul_nonneg h0 h0) hscale.le, ?_⟩
      refine Int.ediv_le_of_le_mul hscale ?_
      calc x * x ≤ (b * scale) * (b * scale) := mul_le_mul h h h0 (by positivity)
        _ = ((b * b : ℕ) : ℤ) * scale * scale := by push_cast; ring
    have hpow : (b * b) ^ 2 ^ n = b ^ 2 ^ (n + 1) := by
      rw [← pow_two, ← pow_mul, ← pow_succ']
    rw [squareTimes, ← hpow]
    exact ih hsquare.1 hsquare.2

/-! ### The constants -/

theorem natAbs_arctanInverse_le (q : ℕ) (positive : 0 < q) (scale : ℕ) :
    (arctanInverse q positive scale).natAbs ≤ scale := by
  obtain ⟨h0, hle⟩ := alternating_inverseTerms q positive scale q 0
  have hterm : scale / (q * (2 * 0 + 1)) ≤ scale := Nat.div_le_self _ _
  rw [arctanInverse]
  omega

theorem natAbs_computePi_le (digits : ℕ) :
    (computePi digits).natAbs ≤ tens (digits + 12) := by
  have h5 := natAbs_arctanInverse_le 5 (by decide) (powerOfTen (digits + extraDigits))
  have h239 := natAbs_arctanInverse_le 239 (by decide) (powerOfTen (digits + extraDigits))
  have hscale : powerOfTen (digits + extraDigits) ≤ tens (digits + 10) := powerOfTen_le_tens _
  have htens : tens (digits + 12) = tens (digits + 10) * 100 := by
    rw [show digits + 12 = digits + 10 + 2 by omega, tens_add]
    rfl
  have hdiv : (computePi digits).natAbs ≤
      (16 * arctanInverse 5 (by decide) (powerOfTen (digits + extraDigits)) -
        4 * arctanInverse 239 (by decide) (powerOfTen (digits + extraDigits))).natAbs := by
    rw [computePi, Int.natAbs_tdiv]
    exact Nat.div_le_self _ _
  omega

theorem exp_natCast (n w : ℕ) :
    exp n w = squareTimes (powerOfTen w) halvings
      (total (exponentialTerms (n / 2 ^ halvings) (powerOfTen w))) := by
  have hpart : (n : ℤ).tdiv (Nat.pow 2 halvings : ℕ) = (n / 2 ^ halvings : ℕ) := by
    rw [Int.tdiv_eq_ediv_of_nonneg (Int.natCast_nonneg _)]
    rfl
  simp only [exp, hpart]
  rw [if_neg (not_lt.mpr (Int.natCast_nonneg _)), Int.natAbs_natCast]

theorem natAbs_exp_one_le (w : ℕ) :
    (exp (powerOfTen w) w).natAbs ≤ tens (w + 2 ^ halvings) := by
  have hs := powerOfTen_pos w
  have hle := powerOfTen_le_tens w
  have hexp := exp_natCast (powerOfTen w) w
  generalize powerOfTen w = scale at hs hle hexp ⊢
  have hsmall : 2 * (scale / 2 ^ halvings) ≤ scale := by
    calc 2 * (scale / 2 ^ halvings)
        ≤ 2 ^ halvings * (scale / 2 ^ halvings) := Nat.mul_le_mul_right _ (by decide)
      _ ≤ scale := Nat.mul_div_le _ _
  have hsum : total (exponentialTerms (scale / 2 ^ halvings) scale) ≤ 2 * scale := by
    have h := total_factorialTerms_le hsmall id (fun n => Nat.le_refl n) 1 scale
    show scale + total _ ≤ 2 * scale
    omega
  obtain ⟨h0, hbound⟩ := squareTimes_le hs halvings (b := 2)
    (x := total (exponentialTerms (scale / 2 ^ halvings) scale)) (Int.natCast_nonneg _)
    (by exact_mod_cast hsum)
  have hnatAbs : (exp scale w).natAbs ≤ 2 ^ 2 ^ halvings * scale := by
    rw [← Int.ofNat_le, hexp, Int.natAbs_of_nonneg h0]
    exact hbound.trans (le_of_eq (Int.natCast_mul _ _).symm)
  have hpow : 2 ^ 2 ^ halvings ≤ tens (2 ^ halvings) := by
    rw [tens_eq_pow]
    exact Nat.pow_le_pow_left (by decide) _
  rw [tens_add, mul_comm]
  exact hnatAbs.trans (Nat.mul_le_mul hpow hle)

end DeskCalculator.FixedPoint
