import DeskCalculator.Proofs.Constants

/-!
# The digits of the circle constant

Each of the two arctangents is off by less than one unit for each of its terms, and there are no
more terms than digits. Ten digits more than were asked for take this up, so what is known of the
circle constant is off by ten units of its last digit at most, whatever was asked for before.
-/

set_option autoImplicit false

namespace DeskCalculator.FixedPoint

open DeskCalculator.Natural

noncomputable def inverseTerm (q scale : ℕ) (k : ℕ) : ℝ :=
  scale / ((q ^ (2 * k + 1) * (2 * k + 1) : ℕ) : ℝ)

variable {q scale : ℕ}

theorem inverseTerm_nonneg (q scale k : ℕ) : 0 ≤ inverseTerm q scale k := by
  unfold inverseTerm
  positivity

theorem follows_inverseTerms (positive : 0 < q) (scale k : ℕ) :
    Follows (inverseTerm q scale) (fun _ => 1) k
      (inverseTerms q positive scale (q ^ (2 * k + 1)) k) := by
  suffices hmain : ∀ power k : ℕ, power = q ^ (2 * k + 1) →
      Follows (inverseTerm q scale) (fun _ => 1) k (inverseTerms q positive scale power k) from
    hmain _ k rfl
  intro power k
  have hterm : ∀ k, ((scale / (q ^ (2 * k + 1) * (2 * k + 1)) : ℕ) : ℝ) ≤ inverseTerm q scale k ∧
      inverseTerm q scale k ≤ (scale / (q ^ (2 * k + 1) * (2 * k + 1)) : ℕ) + 1 := by
    intro k
    have hd : 0 < q ^ (2 * k + 1) * (2 * k + 1) := Nat.mul_pos (Nat.pow_pos positive) (by omega)
    refine ⟨Nat.cast_div_le, ?_⟩
    rw [inverseTerm, div_le_iff₀ (by exact_mod_cast hd), mul_comm]
    exact_mod_cast (Nat.lt_mul_div_succ scale hd).le
  induction power, k using inverseTerms.induct q positive scale with
  | case1 power k term last =>
    rintro rfl
    have hzero : scale / (q ^ (2 * k + 1) * (2 * k + 1)) = 0 := last
    obtain ⟨-, hhigh⟩ := hterm k
    rw [hzero, Nat.cast_zero, zero_add] at hhigh
    rw [inverseTerms, dif_pos last]
    exact .ends (inverseTerm_nonneg q scale k) hhigh
  | case2 power k term last ih =>
    rintro rfl
    obtain ⟨hlow, hhigh⟩ := hterm k
    rw [inverseTerms, dif_neg last]
    exact .term (Nat.pos_of_ne_zero last) hlow hhigh (ih (by ring))

theorem hasSum_inverseTerm (hq : 1 < q) (scale : ℕ) :
    HasSum (fun k => (-1) ^ k * inverseTerm q scale k) (scale * Real.arctan (q : ℝ)⁻¹) := by
  have hq1 : (1 : ℝ) < q := by exact_mod_cast hq
  have hsmall : ‖(q : ℝ)⁻¹‖ < 1 := by
    rw [Real.norm_eq_abs, abs_inv, abs_of_pos (by linarith)]
    exact inv_lt_one_of_one_lt₀ hq1
  have hterm : ∀ k, (-1) ^ k * inverseTerm q scale k =
      scale * ((-1) ^ k * (q : ℝ)⁻¹ ^ (2 * k + 1) / ((2 * k + 1 : ℕ) : ℝ)) := by
    intro k
    unfold inverseTerm
    push_cast
    rw [inv_pow]
    field_simp
  simp only [hterm]
  exact (Real.hasSum_arctan hsmall).mul_left (scale : ℝ)

theorem inverseTerm_succ_le (positive : 0 < q) (scale k : ℕ) :
    inverseTerm q scale (k + 1) ≤ inverseTerm q scale k := by
  have hd : q ^ (2 * k + 1) * (2 * k + 1) ≤ q ^ (2 * (k + 1) + 1) * (2 * (k + 1) + 1) :=
    Nat.mul_le_mul (Nat.pow_le_pow_right positive (by omega)) (by omega)
  have hpos : 0 < q ^ (2 * k + 1) * (2 * k + 1) := Nat.mul_pos (Nat.pow_pos positive) (by omega)
  unfold inverseTerm
  exact div_le_div_of_nonneg_left (Nat.cast_nonneg _) (by exact_mod_cast hpos) (by exact_mod_cast hd)

theorem inverseTerm_lt_one (hq : 4 ≤ q) {m : ℕ} (hscale : scale ≤ 10 ^ m) {k : ℕ} (hk : m ≤ k) :
    inverseTerm q scale k < 1 := by
  have hd : 10 ^ m < q ^ (2 * k + 1) * (2 * k + 1) := by
    calc 10 ^ m ≤ 10 ^ k := Nat.pow_le_pow_right (by decide) hk
      _ ≤ (4 ^ 2) ^ k := Nat.pow_le_pow_left (by decide) k
      _ = 4 ^ (2 * k) := (pow_mul 4 2 k).symm
      _ ≤ q ^ (2 * k) := Nat.pow_le_pow_left hq _
      _ < q ^ (2 * k + 1) := Nat.pow_lt_pow_right (by omega) (by omega)
      _ ≤ q ^ (2 * k + 1) * (2 * k + 1) := Nat.le_mul_of_pos_right _ (by omega)
  have hlt : scale < q ^ (2 * k + 1) * (2 * k + 1) := hscale.trans_lt hd
  rw [inverseTerm, div_lt_one (by exact_mod_cast (Nat.zero_le _).trans_lt hlt)]
  exact_mod_cast hlt

theorem abs_arctanInverse_sub_le (positive : 0 < q) (hq : 4 ≤ q) {m : ℕ} (hscale : scale ≤ 10 ^ m) :
    |(arctanInverse q positive scale : ℝ) - scale * Real.arctan (q : ℝ)⁻¹| ≤ m + 1 := by
  have hfollows := follows_inverseTerms positive scale 0
  rw [Nat.mul_zero, Nat.zero_add, pow_one] at hfollows
  have hlength := hfollows.length_le (Nat.zero_le m) fun k hk => inverseTerm_lt_one hq hscale hk
  have hoff := hfollows.abs_alternating_sub_le (fun _ => le_refl 1)
    (hasSum_inverseTerm (by omega) scale) fun k _ => inverseTerm_succ_le positive scale k
  rw [remainder_zero, mul_one] at hoff
  refine hoff.trans ?_
  exact_mod_cast Nat.succ_le_succ (Nat.zero_add _ ▸ hlength)

theorem abs_machinSum_sub_le {m : ℕ} (hscale : scale ≤ 10 ^ m) :
    |(machinSum scale : ℝ) - Real.pi * scale| ≤ 20 * (m + 1) := by
  have h5 := abs_le.mp (abs_arctanInverse_sub_le (q := 5) (by decide) (by decide) hscale)
  have h239 := abs_le.mp (abs_arctanInverse_sub_le (q := 239) (by decide) (by decide) hscale)
  have hmachin := Real.four_mul_arctan_inv_5_sub_arctan_inv_239
  have hpi : Real.pi * scale =
      16 * (scale * Real.arctan (5 : ℕ)⁻¹) - 4 * (scale * Real.arctan (239 : ℕ)⁻¹) := by
    push_cast
    linear_combination -4 * scale * hmachin
  rw [machinSum, hpi]
  push_cast at h5 h239 ⊢
  rw [abs_le]
  constructor <;> linarith

theorem abs_computePi_sub_le {digits : ℕ} (hdigits : digits + extraDigits < UInt32.size) :
    |(computePi digits : ℝ) - Real.pi * 10 ^ digits| ≤ 10 := by
  have hpow : powerOfTen (digits + extraDigits) = 10 ^ (digits + extraDigits) :=
    powerOfTen_eq _ hdigits
  have hsum := abs_machinSum_sub_le hpow.le
  have hscale : Real.pi * powerOfTen (digits + extraDigits) =
      Real.pi * 10 ^ digits * (tens extraDigits : ℕ) := by
    rw [hpow, cast_tens]
    push_cast
    ring
  have hcount : ((digits + extraDigits : ℕ) : ℝ) ≤ 4294967295 := by
    exact_mod_cast Nat.le_sub_one_of_lt hdigits
  have htens : ((tens extraDigits : ℕ) : ℝ) = 10 ^ 10 := by norm_num [tens, extraDigits]
  rw [hscale] at hsum
  rw [computePi_eq]
  refine (abs_tdiv_sub_le (tens_pos extraDigits) hsum).trans ?_
  rw [htens]
  linarith

theorem abs_piDigits_sub_le {known : Constants} (hcomputed : Computed computePi known.pi)
    (hcounted : Counted known.pi) {digits : ℕ} (hdigits : digits + extraDigits < UInt32.size) :
    |(known.piDigits digits : ℝ) - Real.pi * 10 ^ digits| ≤ 10 :=
  abs_request_sub_le (fun _ => abs_computePi_sub_le) hcomputed hcounted hdigits

end DeskCalculator.FixedPoint
