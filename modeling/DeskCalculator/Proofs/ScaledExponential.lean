import DeskCalculator.Proofs.Approximation
import DeskCalculator.Proofs.Series

/-!
# The exponential of scaled integers

Every truncation drops something, so the exponential of a number that is not negative is never
overestimated. The argument is so small after the halvings that there is a term for three digits and
each is off by less than three units; the squares double what is missing, as a part of the whole,
and add one unit each. In units of the scale that is a bounded number for each digit, as long as the
power of ten that is asked for is the one that is held.
-/

set_option autoImplicit false

namespace DeskCalculator.FixedPoint

open DeskCalculator.Natural

/-! ### The series -/

noncomputable def exponentialTerm (scale : ℕ) (r : ℝ) (n : ℕ) : ℝ :=
  scale * (r ^ n / n.factorial)

theorem exponentialTerm_zero (scale : ℕ) (r : ℝ) : exponentialTerm scale r 0 = scale := by
  simp [exponentialTerm]

theorem exponentialTerm_succ (scale : ℕ) (r : ℝ) (n : ℕ) :
    exponentialTerm scale r (n + 1) = exponentialTerm scale r n * r / id (n + 1) := by
  unfold exponentialTerm
  rw [Nat.factorial_succ, id]
  push_cast
  field_simp
  ring

theorem hasSum_exponentialTerm (scale : ℕ) (r : ℝ) :
    HasSum (exponentialTerm scale r) (scale * Real.exp r) := by
  rw [Real.exp_eq_exp_ℝ]
  exact (NormedSpace.expSeries_div_hasSum_exp r).mul_left (scale : ℝ)

section

variable {y scale w : ℕ} (hscale : 0 < scale) (hsmall : 1000 * y ≤ scale)

include hscale

theorem isFactorialSeries_exponentialTerm :
    IsFactorialSeries y scale id (y / scale) (exponentialTerm scale (y / scale)) := by
  have hs : (0 : ℝ) < scale := by exact_mod_cast hscale
  have hratio : (y / scale : ℝ) * scale = y := div_mul_cancel₀ _ hs.ne'
  exact ⟨hs.le.trans_eq (exponentialTerm_zero scale _).symm, exponentialTerm_succ scale _,
    hratio.ge, by linarith, hscale, fun n => le_refl n⟩

include hsmall

theorem exponential_ratio_le : (y / scale : ℝ) ≤ 1 / 1000 := by
  have hs : (0 : ℝ) < scale := by exact_mod_cast hscale
  rw [div_le_iff₀ hs]
  have hreal : (1000 : ℝ) * y ≤ scale := by exact_mod_cast hsmall
  linarith

theorem exponentialTerm_step_le (n : ℕ) :
    exponentialTerm scale (y / scale) (n + 1) ≤ 1 / 1000 * exponentialTerm scale (y / scale) n := by
  have hd : (1 : ℝ) ≤ id (n + 1) := by exact_mod_cast Nat.succ_le_succ (Nat.zero_le n)
  have hratio := exponential_ratio_le hscale hsmall
  exact (isFactorialSeries_exponentialTerm hscale).step_le (by linarith)

theorem exponentialTerm_le (n : ℕ) :
    exponentialTerm scale (y / scale) n ≤ (1 / 1000) ^ n * scale := by
  induction n with
  | zero => rw [exponentialTerm_zero, pow_zero, one_mul]
  | succ n ih =>
    have hstep := exponentialTerm_step_le hscale hsmall n
    rw [pow_succ]
    linarith

theorem exponentialTerm_lt_one (hw : scale ≤ 10 ^ w) {k : ℕ} (hk : w / 3 + 1 ≤ k) :
    exponentialTerm scale (y / scale) k < 1 := by
  have hlt : scale < 1000 ^ k := by
    calc scale ≤ 10 ^ w := hw
      _ < 10 ^ (3 * k) := Nat.pow_lt_pow_right (by decide) (by omega)
      _ = 1000 ^ k := pow_mul 10 3 k
  refine (exponentialTerm_le hscale hsmall k).trans_lt ?_
  rw [div_pow, one_pow, div_mul_eq_mul_div, one_mul, div_lt_one (by positivity)]
  exact_mod_cast hlt

theorem total_exponentialTerms_bounds (hw : scale ≤ 10 ^ w) :
    (total (exponentialTerms y scale) : ℝ) ≤ scale * Real.exp (y / scale) ∧
      scale * Real.exp (y / scale) ≤ total (exponentialTerms y scale) + (w + 6) := by
  have hseries := isFactorialSeries_exponentialTerm (y := y) hscale
  have hratio := exponential_ratio_le hscale hsmall
  have hzero := exponentialTerm_zero scale (y / scale)
  have hbelow : ∀ n, exponentialTerm scale (y / scale) n ≤ 1 * scale := fun n =>
    (exponentialTerm_le hscale hsmall n).trans
      (mul_le_mul_of_nonneg_right (pow_le_one₀ (by norm_num) (by norm_num)) (Nat.cast_nonneg _))
  have hfollows := hseries.follows (ε := fun _ => 3) hbelow (fun n => ?_) hzero.ge
    (by rw [hzero]; linarith)
  case refine_1 =>
    have hd := hseries.divisor_pos n
    have hone : (1 : ℝ) ≤ id (n + 1) := by exact_mod_cast Nat.succ_le_succ (Nat.zero_le n)
    rw [← le_sub_iff_add_le', div_le_iff₀ hd]
    linarith
  have hlength : 1 + (factorialTerms y scale id hseries.grows 1 scale).length ≤ w / 3 + 1 :=
    hfollows.length_le (by omega) fun k hk => exponentialTerm_lt_one hscale hsmall hw hk
  have hrest : HasSum (fun k => exponentialTerm scale (y / scale) (k + 1))
      (scale * Real.exp (y / scale) - scale) := by
    have hshift := (hasSum_nat_add_iff' 1).mpr (hasSum_exponentialTerm scale (y / scale))
    rwa [Finset.sum_range_one, hzero] at hshift
  obtain ⟨hlow, hhigh⟩ := hfollows.total_bounds (fun _ => le_refl 3) hseries.nonneg hrest
    fun k _ => by linarith [exponentialTerm_step_le hscale hsmall k, hseries.nonneg k]
  have hcount : 3 * (((factorialTerms y scale id hseries.grows 1 scale).length : ℝ) + 2) ≤ w + 6 := by
    exact_mod_cast (by omega)
  rw [exponentialTerms, total]
  push_cast
  constructor <;> linarith

end

/-! ### The squares -/

theorem square_bounds {scale : ℕ} (hscale : 0 < scale) {x : ℤ} {u η : ℝ} (hu : 1 ≤ u) (h0 : 0 ≤ x)
    (hhigh : (x : ℝ) ≤ scale * u) (hlow : scale * u * (1 + 1 / scale - η) ≤ x) :
    0 ≤ (x * x).tdiv scale ∧ (((x * x).tdiv scale : ℤ) : ℝ) ≤ scale * (u * u) ∧
      scale * (u * u) * (1 + 1 / scale - 2 * η) ≤ ((x * x).tdiv scale : ℤ) := by
  have hs : (0 : ℝ) < scale := by exact_mod_cast hscale
  have hx : (0 : ℝ) ≤ x := by exact_mod_cast h0
  have hcut := (abs_lt.mp (abs_tdiv_sub_lt (x * x) hscale)).1
  have hle := abs_tdiv_le (x * x) scale
  have hnonneg : 0 ≤ (x * x).tdiv scale :=
    Int.tdiv_nonneg (mul_nonneg h0 h0) (Int.natCast_nonneg _)
  rw [abs_of_nonneg (by exact_mod_cast hnonneg), abs_of_nonneg (by exact_mod_cast mul_nonneg h0 h0)]
    at hle
  push_cast at hcut hle
  refine ⟨hnonneg, hle.trans ?_, ?_⟩
  · rw [div_le_iff₀ hs]
    nlinarith
  · have hsquare : scale * (u * u) * (1 + 2 / scale - 2 * η) ≤ (x : ℝ) * x / scale := by
      rw [le_div_iff₀ hs]
      have hgap : 0 ≤ ((x : ℝ) - scale * u) ^ 2 := sq_nonneg _
      have hscaled : scale * u * (scale * u * (1 + 1 / scale - η)) ≤ scale * u * x :=
        mul_le_mul_of_nonneg_left hlow (by positivity)
      have hexpand : scale * (u * u) * (1 + 2 / scale - 2 * η) * scale =
          2 * (scale * u * (scale * u * (1 + 1 / scale - η))) - (scale * u) ^ 2 := by ring
      rw [hexpand]
      nlinarith
    have hunit : 1 ≤ scale * (u * u) * (1 / scale) := by
      rw [mul_right_comm, mul_one_div_cancel hs.ne', one_mul]
      nlinarith
    have hsplit : scale * (u * u) * (1 + 2 / scale - 2 * η) =
        scale * (u * u) * (1 + 1 / scale - 2 * η) + scale * (u * u) * (1 / scale) := by ring
    linarith

theorem squareTimes_bounds {scale : ℕ} (hscale : 0 < scale) (n : ℕ) {x : ℤ} {u η : ℝ} (hu : 1 ≤ u)
    (h0 : 0 ≤ x) (hhigh : (x : ℝ) ≤ scale * u) (hlow : scale * u * (1 + 1 / scale - η) ≤ x) :
    (squareTimes scale n x : ℝ) ≤ scale * u ^ 2 ^ n ∧
      scale * u ^ 2 ^ n * (1 + 1 / scale - 2 ^ n * η) ≤ squareTimes scale n x := by
  induction n generalizing x u η with
  | zero =>
    rw [squareTimes, pow_zero, pow_one, pow_zero, one_mul]
    exact ⟨hhigh, hlow⟩
  | succ n ih =>
    obtain ⟨hnonneg, hhigh', hlow'⟩ := square_bounds hscale hu h0 hhigh hlow
    have hpow : (u * u) ^ 2 ^ n = u ^ 2 ^ (n + 1) := by rw [← pow_two, ← pow_mul, ← pow_succ']
    have hrest := ih (by nlinarith) hnonneg hhigh' hlow'
    rwa [hpow, ← mul_assoc, ← pow_succ] at hrest

/-! ### Both -/

theorem exp_part_bounds {scale : ℕ} (hscale : 0 < scale) (n : ℕ) {d : ℕ} (hd : 0 < d) :
    Real.exp ((n / d : ℕ) / scale) ≤ Real.exp (n / scale / d) ∧
      Real.exp (n / scale / d) * (1 - 1 / scale) ≤ Real.exp ((n / d : ℕ) / scale) := by
  have hs : (0 : ℝ) < scale := by exact_mod_cast hscale
  have hd' : (0 : ℝ) < d := by exact_mod_cast hd
  have hle : ((n / d : ℕ) : ℝ) ≤ n / d := Nat.cast_div_le
  have hlt : (n : ℝ) / d ≤ (n / d : ℕ) + 1 := by
    rw [div_le_iff₀ hd', mul_comm]
    exact_mod_cast (Nat.lt_mul_div_succ n hd).le
  rw [div_right_comm]
  refine ⟨Real.exp_le_exp.mpr (div_le_div_of_nonneg_right hle hs.le), ?_⟩
  have hdrop : (n : ℝ) / d / scale + -(1 / scale) ≤ (n / d : ℕ) / scale := by
    rw [← sub_eq_add_neg, ← sub_div]
    exact div_le_div_of_nonneg_right (by linarith) hs.le
  calc Real.exp (n / d / scale) * (1 - 1 / scale)
      ≤ Real.exp (n / d / scale) * Real.exp (-(1 / scale)) :=
        mul_le_mul_of_nonneg_left (by linarith [Real.add_one_le_exp (-(1 / (scale : ℝ)))])
          (Real.exp_pos _).le
    _ = Real.exp (n / d / scale + -(1 / scale)) := (Real.exp_add _ _).symm
    _ ≤ Real.exp ((n / d : ℕ) / scale) := Real.exp_le_exp.mpr hdrop

theorem total_part_bounds {scale w n : ℕ} (hscale : 0 < scale) (hw : scale ≤ 10 ^ w)
    (hn : n ≤ 3 * scale) :
    (total (exponentialTerms (n / 2 ^ halvings) scale) : ℝ) ≤
        scale * Real.exp (n / scale / (2 ^ halvings : ℕ)) ∧
      scale * Real.exp (n / scale / (2 ^ halvings : ℕ)) * (1 + 1 / scale - (w + 8) / scale) ≤
        total (exponentialTerms (n / 2 ^ halvings) scale) := by
  have hs : (0 : ℝ) < scale := by exact_mod_cast hscale
  have hsmall : 1000 * (n / 2 ^ halvings) ≤ scale := by
    show 1000 * (n / 4096) ≤ scale
    omega
  obtain ⟨hlow, hhigh⟩ := total_exponentialTerms_bounds hscale hsmall hw
  obtain ⟨hpart, hpart'⟩ := exp_part_bounds hscale n (show 0 < 2 ^ halvings by decide)
  have hone : 1 ≤ Real.exp (n / scale / (2 ^ halvings : ℕ)) := Real.one_le_exp (by positivity)
  generalize total (exponentialTerms (n / 2 ^ halvings) scale) = sum at *
  generalize Real.exp (n / scale / (2 ^ halvings : ℕ)) = u at *
  constructor
  · exact hlow.trans (mul_le_mul_of_nonneg_left hpart hs.le)
  · have hexpand : scale * u * (1 + 1 / scale - (w + 8) / scale) = scale * u - (w + 7) * u := by
      field_simp
      ring
    have hdrop : scale * (u * (1 - 1 / scale)) = scale * u - u := by
      field_simp
    have hmissing := mul_le_mul_of_nonneg_left hpart' hs.le
    have hdigits : (w + 6 : ℝ) ≤ (w + 6) * u := le_mul_of_one_le_right (by positivity) hone
    linarith

theorem exp_bounds {x : ℤ} {w : ℕ} (h0 : 0 ≤ x) (hx : x ≤ 3 * powerOfTen w) :
    (exp x w : ℝ) ≤ powerOfTen w * Real.exp (x / powerOfTen w) ∧
      powerOfTen w * Real.exp (x / powerOfTen w) ≤
        exp x w + 4096 * (w + 8) * Real.exp (x / powerOfTen w) := by
  have hscale := powerOfTen_pos w
  have hw : powerOfTen w ≤ 10 ^ w := powerOfTen_le_tens w
  obtain ⟨n, rfl⟩ := Int.eq_ofNat_of_zero_le h0
  rw [exp_natCast, Int.cast_natCast]
  generalize powerOfTen w = scale at *
  have hs : (0 : ℝ) < scale := by exact_mod_cast hscale
  obtain ⟨hhigh, hlow⟩ := total_part_bounds hscale hw (by exact_mod_cast hx)
  have hroot : Real.exp (n / scale / (2 ^ halvings : ℕ)) ^ 2 ^ halvings = Real.exp (n / scale) := by
    rw [← Real.exp_nat_mul, mul_div_cancel₀]
    exact_mod_cast (show 2 ^ halvings ≠ 0 by decide)
  obtain ⟨hhigh', hlow'⟩ := squareTimes_bounds hscale halvings
    (Real.one_le_exp (by positivity)) (Int.natCast_nonneg _) hhigh hlow
  rw [hroot] at hhigh' hlow'
  have hmissing :
      scale * Real.exp (n / scale) * (1 + 1 / scale - 2 ^ halvings * ((w + 8) / scale)) =
        scale * Real.exp (n / scale) + Real.exp (n / scale) -
          4096 * (w + 8) * Real.exp (n / scale) := by
    rw [show (2 : ℝ) ^ halvings = 4096 by norm_num [halvings]]
    field_simp
  have hpos := Real.exp_pos (n / scale)
  exact ⟨hhigh', by linarith⟩

/-! ### Units of the scale -/

theorem exp_three_lt : Real.exp 3 < 21 := by
  calc Real.exp 3 = Real.exp 1 ^ 3 := by rw [← Real.exp_nat_mul]; norm_num
    _ ≤ 2.7182818286 ^ 3 := pow_le_pow_left₀ (Real.exp_pos 1).le Real.exp_one_lt_d9.le 3
    _ < 21 := by norm_num

/-- How many units the exponential is below the exact one, for a scale. -/
noncomputable def expShortfall (scale : ℕ) (x : ℤ) (w : ℕ) : ℝ :=
  scale * Real.exp (x / scale) - exp x w

/-- The exact exponential is below 21 up to three, so the part of it that is missing comes to a
number of units for each digit. -/
theorem expShortfall_mem {x : ℤ} {w : ℕ} (h0 : 0 ≤ x) (hx : x ≤ 3 * powerOfTen w) :
    expShortfall (powerOfTen w) x w ∈ Set.Icc 0 (10 ^ 5 * (w + 10) : ℝ) := by
  obtain ⟨hhigh, hlow⟩ := exp_bounds h0 hx
  have hscale : (0 : ℝ) < powerOfTen w := by exact_mod_cast powerOfTen_pos w
  have hargument : (x : ℝ) / powerOfTen w ≤ 3 := by
    rw [div_le_iff₀ hscale]
    exact_mod_cast hx
  have hexp : Real.exp (x / powerOfTen w) ≤ 21 :=
    (Real.exp_le_exp.mpr hargument).trans exp_three_lt.le
  have hmissing : 4096 * (w + 8) * Real.exp (x / powerOfTen w) ≤ 4096 * (w + 8) * 21 :=
    mul_le_mul_of_nonneg_left hexp (by positivity)
  rw [expShortfall]
  constructor <;> linarith

theorem powerOfTen_add_lt {w : ℕ} (hw : UInt32.size ≤ w) :
    powerOfTen w + 10 ^ 5 * (w + 10) < 10 ^ w := by
  have hword : UInt32.size = 4294967296 := rfl
  have hheld : w % UInt32.size < UInt32.size := Nat.mod_lt w (by decide)
  obtain ⟨n, rfl⟩ : ∃ n, w = n + 6 + 1 := ⟨w - 7, by omega⟩
  have hbelow : powerOfTen (n + 6 + 1) ≤ tens (n + 6) := tens_le_tens (by omega)
  have hlarge := lt_tens n
  have hsix : tens (n + 6) = tens n * 1000000 := tens_add n 6
  rw [← tens_eq_pow (n + 6 + 1), tens_succ]
  omega

/-- Where the power of ten does not fit, the exponential is already far too small at zero. -/
theorem lt_expShortfall_zero {w : ℕ} (hw : UInt32.size ≤ w) :
    10 ^ 5 * (w + 10 : ℝ) < expShortfall (10 ^ w) 0 w := by
  have hnear := (expShortfall_mem (x := 0) (w := w) le_rfl (by positivity)).1
  have hfar : (powerOfTen w : ℝ) + 10 ^ 5 * (w + 10) < 10 ^ w := by
    exact_mod_cast powerOfTen_add_lt hw
  rw [expShortfall, Int.cast_zero, zero_div, Real.exp_zero, mul_one] at hnear ⊢
  push_cast
  linarith

/-- Against the power of ten that is held the truncations never overshoot, and cost at most a
hundred thousand units for each digit and ten more. Against `10 ^ w` itself the same bounds hold
exactly as long as `w` fits into 32 bits. -/
theorem exp_lower_approximation (w : ℕ) :
    (∀ x : ℤ, 0 ≤ x → x ≤ 3 * powerOfTen w →
      expShortfall (powerOfTen w) x w ∈ Set.Icc 0 (10 ^ 5 * (w + 10) : ℝ)) ∧
    ((∀ x : ℤ, 0 ≤ x → x ≤ 3 * 10 ^ w →
      expShortfall (10 ^ w) x w ∈ Set.Icc 0 (10 ^ 5 * (w + 10) : ℝ)) ↔ w < UInt32.size) := by
  refine ⟨fun x => expShortfall_mem, ?_⟩
  constructor
  · intro h
    by_contra hw
    exact (h 0 le_rfl (by positivity)).2.not_gt (lt_expShortfall_zero (not_lt.mp hw))
  · intro hw x h0 hx
    have hheld : powerOfTen w = 10 ^ w := powerOfTen_eq w hw
    rw [← hheld]
    exact expShortfall_mem h0 (by rw [hheld]; exact_mod_cast hx)

theorem exp_lower_approximation_four :
    expShortfall (10 ^ 4) 25000 4 ∈ Set.Icc 0 (10 ^ 5 * (4 + 10) : ℝ) ∧
      expShortfall (10 ^ UInt32.size) 0 UInt32.size ∉
        Set.Icc 0 (10 ^ 5 * (UInt32.size + 10) : ℝ) := by
  constructor
  · have hfour := (exp_lower_approximation 4).2.mpr (by decide) 25000 (by decide) (by decide)
    exact_mod_cast hfour
  · exact fun h => h.2.not_gt (lt_expShortfall_zero le_rfl)

end DeskCalculator.FixedPoint
