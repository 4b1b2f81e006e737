import DeskCalculator.Proofs.CircleConstant

/-!
# The digits of the logarithm of ten

The logarithm of ten is summed from two inverse hyperbolic tangents, whose terms are all positive
and fall by more than a half. Each truncated term is off by less than one, and there are no more
than two of them for each digit, so the digits that are known are off by ten units of the last one
at most. Where a length is no longer counted in 32 bits, the digits are those of a shorter computation,
or there are none left.
-/

set_option autoImplicit false

namespace DeskCalculator.FixedPoint

open DeskCalculator.Natural

variable {q scale : ℕ}

noncomputable def twiceArtanh (q scale : ℕ) : ℝ :=
  scale * (Real.log (1 + (q : ℝ)⁻¹) - Real.log (1 - (q : ℝ)⁻¹))

theorem hasSum_inverseTerm_artanh (hq : 1 < q) (scale : ℕ) :
    HasSum (inverseTerm q scale) (twiceArtanh q scale / 2) := by
  have hq1 : (1 : ℝ) < q := by exact_mod_cast hq
  have hsmall : |(q : ℝ)⁻¹| < 1 := by
    rw [abs_inv, abs_of_pos (by linarith)]
    exact inv_lt_one_of_one_lt₀ hq1
  have hterm : ∀ k, inverseTerm q scale k =
      scale * (2 * (1 / (2 * k + 1)) * (q : ℝ)⁻¹ ^ (2 * k + 1)) / 2 := by
    intro k
    unfold inverseTerm
    push_cast
    rw [inv_pow]
    field_simp
  rw [funext hterm, twiceArtanh]
  exact ((Real.hasSum_log_sub_log_of_abs_lt_one hsmall).mul_left (scale : ℝ)).div_const 2

theorem two_mul_inverseTerm_succ_le (hq : 2 ≤ q) (scale k : ℕ) :
    2 * inverseTerm q scale (k + 1) ≤ inverseTerm q scale k := by
  have hd : 2 * (q ^ (2 * k + 1) * (2 * k + 1)) ≤
      q ^ (2 * (k + 1) + 1) * (2 * (k + 1) + 1) := by
    calc 2 * (q ^ (2 * k + 1) * (2 * k + 1))
        ≤ q * q * (q ^ (2 * k + 1) * (2 * (k + 1) + 1)) :=
          Nat.mul_le_mul (by nlinarith) (Nat.mul_le_mul_left _ (by omega))
      _ = q ^ (2 * (k + 1) + 1) * (2 * (k + 1) + 1) := by ring
  have hpos : 0 < q ^ (2 * k + 1) * (2 * k + 1) :=
    Nat.mul_pos (Nat.pow_pos (by omega)) (by omega)
  have hpos' : 0 < q ^ (2 * (k + 1) + 1) * (2 * (k + 1) + 1) := by omega
  unfold inverseTerm
  rw [mul_div_assoc', div_le_div_iff₀ (by exact_mod_cast hpos') (by exact_mod_cast hpos)]
  have hcast : 2 * ((q ^ (2 * k + 1) * (2 * k + 1) : ℕ) : ℝ) ≤
      (q ^ (2 * (k + 1) + 1) * (2 * (k + 1) + 1) : ℕ) := by exact_mod_cast hd
  nlinarith [Nat.cast_nonneg (α := ℝ) scale]

theorem inverseTerm_lt_one_of_two_le (hq : 2 ≤ q) {m : ℕ} (hscale : scale ≤ 10 ^ m) {k : ℕ}
    (hk : 2 * m ≤ k) : inverseTerm q scale k < 1 := by
  have hd : 10 ^ m < q ^ (2 * k + 1) * (2 * k + 1) := by
    calc 10 ^ m ≤ (2 ^ 4) ^ m := Nat.pow_le_pow_left (by decide) m
      _ = 2 ^ (4 * m) := (pow_mul 2 4 m).symm
      _ < 2 ^ (2 * k + 1) := Nat.pow_lt_pow_right (by decide) (by omega)
      _ ≤ q ^ (2 * k + 1) := Nat.pow_le_pow_left hq _
      _ ≤ q ^ (2 * k + 1) * (2 * k + 1) := Nat.le_mul_of_pos_right _ (by omega)
  have hlt : scale < q ^ (2 * k + 1) * (2 * k + 1) := hscale.trans_lt hd
  rw [inverseTerm, div_lt_one (by exact_mod_cast (Nat.zero_le _).trans_lt hlt)]
  exact_mod_cast hlt

theorem artanhInverse_bounds (positive : 0 < q) (hq : 2 ≤ q) {m : ℕ} (hscale : scale ≤ 10 ^ m) :
    (artanhInverse q positive scale : ℝ) ≤ twiceArtanh q scale / 2 ∧
      twiceArtanh q scale / 2 ≤ artanhInverse q positive scale + (2 * m + 2) := by
  have hfollows := follows_inverseTerms positive scale 0
  rw [Nat.mul_zero, Nat.zero_add, pow_one] at hfollows
  have hlength := hfollows.length_le (Nat.zero_le (2 * m)) fun k hk =>
    inverseTerm_lt_one_of_two_le hq hscale hk
  obtain ⟨hlow, hhigh⟩ := hfollows.total_bounds (fun _ => le_refl 1) (inverseTerm_nonneg q scale)
    (by simpa using hasSum_inverseTerm_artanh (by omega) scale)
    fun k _ => two_mul_inverseTerm_succ_le hq scale k
  have hcount : ((inverseTerms q positive scale q 0).length : ℝ) ≤ 2 * m := by
    exact_mod_cast (by omega)
  refine ⟨hlow, hhigh.trans ?_⟩
  rw [artanhInverse]
  linarith

/-- `ln 10 = 3 ln 2 + ln (5/4)`. -/
theorem three_mul_twiceArtanh_add (scale : ℕ) :
    3 * twiceArtanh 3 scale + twiceArtanh 9 scale = scale * Real.log 10 := by
  have htwo : Real.log (1 + ((3 : ℕ) : ℝ)⁻¹) - Real.log (1 - ((3 : ℕ) : ℝ)⁻¹) = Real.log 2 := by
    rw [← Real.log_div (by norm_num) (by norm_num)]
    norm_num
  have hquarters : Real.log (1 + ((9 : ℕ) : ℝ)⁻¹) - Real.log (1 - ((9 : ℕ) : ℝ)⁻¹) =
      Real.log (5 / 4) := by
    rw [← Real.log_div (by norm_num) (by norm_num)]
    norm_num
  have hten : Real.log 10 = 3 * Real.log 2 + Real.log (5 / 4) := by
    rw [show (10 : ℝ) = 2 ^ 3 * (5 / 4) by norm_num,
      Real.log_mul (by norm_num) (by norm_num), Real.log_pow]
    norm_num
  rw [twiceArtanh, twiceArtanh, htwo, hquarters, hten]
  ring

theorem artanhInverse_sum_bounds {m : ℕ} (hscale : scale ≤ 10 ^ m) :
    let sum : ℕ := 3 * (2 * artanhInverse 3 (by decide) scale) +
      2 * artanhInverse 9 (by decide) scale
    (sum : ℝ) ≤ scale * Real.log 10 ∧ scale * Real.log 10 ≤ sum + (16 * m + 16) := by
  obtain ⟨hlow3, hhigh3⟩ := artanhInverse_bounds (q := 3) (by decide) (by decide) hscale
  obtain ⟨hlow9, hhigh9⟩ := artanhInverse_bounds (q := 9) (by decide) (by decide) hscale
  have hten := three_mul_twiceArtanh_add scale
  push_cast
  constructor <;> linarith

theorem abs_computeLn10_sub_le {digits : ℕ} (hdigits : digits + extraDigits < UInt32.size) :
    |(computeLn10 digits : ℝ) - Real.log 10 * 10 ^ digits| ≤ 10 := by
  have hpow : powerOfTen (digits + extraDigits) = 10 ^ (digits + extraDigits) :=
    powerOfTen_eq _ hdigits
  obtain ⟨hlow, hhigh⟩ := artanhInverse_sum_bounds hpow.le
  have hscale : ((10 ^ (digits + extraDigits) : ℕ) : ℝ) = 10 ^ digits * 10 ^ 10 := by
    rw [Nat.cast_pow, pow_add]
    norm_num [extraDigits]
  have hcount : ((digits + extraDigits : ℕ) : ℝ) ≤ 4294967295 := by
    exact_mod_cast Nat.le_sub_one_of_lt hdigits
  have htens : ((tens extraDigits : ℕ) : ℝ) = 10 ^ 10 := by norm_num [tens, extraDigits]
  rw [computeLn10]
  rw [hpow] at hlow hhigh ⊢
  rw [hscale] at hlow hhigh
  generalize 3 * (2 * artanhInverse 3 _ _) + 2 * artanhInverse 9 _ _ = sum at *
  have hcut := abs_lt.mp (abs_tdiv_sub_lt (sum : ℤ) (tens_pos extraDigits))
  rw [htens, Int.cast_natCast] at hcut
  rw [abs_le]
  constructor <;> linarith

theorem log_ten_bounds : 2 < Real.log 10 ∧ Real.log 10 < 5 / 2 := by
  have hlow := Real.exp_one_gt_d9
  have hhigh := Real.exp_one_lt_d9
  constructor
  · rw [Real.lt_log_iff_exp_lt (by norm_num)]
    calc Real.exp 2 = Real.exp 1 ^ 2 := by rw [← Real.exp_nat_mul]; norm_num
      _ ≤ 2.7182818286 ^ 2 := pow_le_pow_left₀ (Real.exp_pos 1).le hhigh.le 2
      _ < 10 := by norm_num
  · have hfive : 2 * Real.log 10 < 5 := by
      rw [show 2 * Real.log 10 = Real.log (10 ^ 2) by rw [Real.log_pow]; norm_num,
        Real.log_lt_iff_lt_exp (by norm_num)]
      calc (10 : ℝ) ^ 2 < 2.7182818283 ^ 5 := by norm_num
        _ ≤ Real.exp 1 ^ 5 := pow_le_pow_left₀ (by norm_num) hlow.le 5
        _ = Real.exp 5 := by rw [← Real.exp_nat_mul]; norm_num
    linarith

/-! ### Digits that are known -/

theorem computeLn10_congr {digits other : ℕ}
    (h : (digits + extraDigits) % UInt32.size = (other + extraDigits) % UInt32.size) :
    computeLn10 digits = computeLn10 other := by
  rw [computeLn10, computeLn10, powerOfTen, powerOfTen, h]

theorem artanhInverse_sum_lt (n : ℕ) :
    3 * (2 * artanhInverse 3 (by decide) (powerOfTen n)) +
      2 * artanhInverse 9 (by decide) (powerOfTen n) < tens (n % UInt32.size + 1) := by
  have hscale : powerOfTen n ≤ 10 ^ n := tens_le_tens (Nat.mod_le _ _)
  obtain ⟨hlow, -⟩ := artanhInverse_sum_bounds hscale
  have hlog := log_ten_bounds.2
  have hpos : (0 : ℝ) < powerOfTen n := by exact_mod_cast powerOfTen_pos _
  rw [tens_succ, ← powerOfTen]
  generalize powerOfTen n = scale at *
  generalize 3 * (2 * artanhInverse 3 _ _) + 2 * artanhInverse 9 _ _ = sum at *
  have hsum : (sum : ℝ) < (scale * 10 : ℕ) := by
    push_cast
    nlinarith
  exact_mod_cast hsum

theorem computeLn10_bounds (digits : ℕ) :
    0 ≤ computeLn10 digits ∧
      computeLn10 digits < tens ((digits + extraDigits) % UInt32.size + 1) := by
  rw [computeLn10, ← Int.ofNat_tdiv]
  refine ⟨Int.natCast_nonneg _, Int.ofNat_lt.mpr ?_⟩
  exact (Nat.div_le_self _ _).trans_lt (artanhInverse_sum_lt _)

theorem computeLn10_eq_zero {digits : ℕ}
    (h : (digits + extraDigits) % UInt32.size < extraDigits) : computeLn10 digits = 0 := by
  rw [computeLn10, ← Int.ofNat_tdiv, Int.natCast_eq_zero]
  exact Nat.div_eq_of_lt ((artanhInverse_sum_lt _).trans_le (tens_le_tens h))

/-- Where the digits that are known are too many to be counted, they are those of a shorter
computation, and either that is long enough for the request or the request cuts all of it off. -/
theorem ln10Digits_eq_tdiv {known : Constants} (hcomputed : Computed computeLn10 known.ln10)
    {digits : ℕ} (hdigits : digits + extraDigits < UInt32.size)
    (hne : known.ln10Digits digits ≠ 0) :
    ∃ cut, digits + cut + extraDigits < UInt32.size ∧
      known.ln10Digits digits = (computeLn10 (digits + cut)).tdiv (tens cut) := by
  have hextra : extraDigits = 10 := rfl
  have hword : UInt32.size = 4294967296 := rfl
  rw [Constants.ln10Digits] at hne ⊢
  rcases request_eq computeLn10 known.ln10 digits with ⟨longest, hmem, hle, heq⟩ | heq
  case inr =>
    rw [heq]
    exact ⟨0, by omega, by rw [tens_zero, Nat.cast_one, Int.tdiv_one, Nat.add_zero]⟩
  rw [heq] at hne ⊢
  simp only [hcomputed longest hmem, powerOfTen] at hne ⊢
  obtain ⟨hnonneg, hlt⟩ := computeLn10_bounds longest.digits
  by_cases hlong : digits + extraDigits ≤ (longest.digits + extraDigits) % UInt32.size
  · obtain ⟨cut, hcut⟩ : ∃ cut, (longest.digits + extraDigits) % UInt32.size =
        digits + extraDigits + cut := ⟨_, (Nat.add_sub_of_le hlong).symm⟩
    have hshort : digits + cut + extraDigits < UInt32.size := by
      have hmod := Nat.mod_lt (longest.digits + extraDigits) (show 0 < UInt32.size by decide)
      omega
    have hrest : (longest.digits - digits) % UInt32.size = cut := by
      rw [hword] at hcut ⊢
      omega
    have hsame : computeLn10 longest.digits = computeLn10 (digits + cut) := by
      refine computeLn10_congr ?_
      rw [hcut, Nat.mod_eq_of_lt hshort, Nat.add_right_comm]
    exact ⟨cut, hshort, by rw [hrest, hsame]⟩
  · refine absurd (Int.tdiv_eq_zero_of_lt hnonneg (hlt.trans_le ?_)) hne
    refine Int.ofNat_le.mpr (tens_le_tens ?_)
    rw [hword] at hlong ⊢
    omega

theorem abs_ln10Digits_sub_le {known : Constants} (hcomputed : Computed computeLn10 known.ln10)
    {digits : ℕ} (hdigits : digits + extraDigits < UInt32.size)
    (hne : known.ln10Digits digits ≠ 0) :
    |(known.ln10Digits digits : ℝ) - Real.log 10 * 10 ^ digits| ≤ 10 := by
  obtain ⟨cut, hcut, heq⟩ := ln10Digits_eq_tdiv hcomputed hdigits hne
  rw [heq]
  exact abs_tdiv_tens_sub_le (abs_computeLn10_sub_le hcut)

theorem abs_ln10Digits_sub_le_of_counted {known : Constants}
    (hcomputed : Computed computeLn10 known.ln10) (hcounted : Counted known.ln10) {digits : ℕ}
    (hdigits : digits + extraDigits < UInt32.size) :
    |(known.ln10Digits digits : ℝ) - Real.log 10 * 10 ^ digits| ≤ 10 :=
  abs_request_sub_le (fun _ => abs_computeLn10_sub_le) hcomputed hcounted hdigits

theorem ln10Digits_ne_zero {known : Constants} (hcomputed : Computed computeLn10 known.ln10)
    (hcounted : Counted known.ln10) {digits : ℕ} (hpos : 0 < digits)
    (hdigits : digits + extraDigits < UInt32.size) : known.ln10Digits digits ≠ 0 := by
  have hnear := abs_ln10Digits_sub_le_of_counted hcomputed hcounted hdigits
  have hten : (10 : ℝ) ≤ 10 ^ digits := le_self_pow₀ (by norm_num) hpos.ne'
  have hlog := log_ten_bounds.1
  intro hzero
  rw [hzero, Int.cast_zero, zero_sub, abs_neg] at hnear
  have hle := (le_abs_self _).trans hnear
  nlinarith

end DeskCalculator.FixedPoint
