import DeskCalculator.Decimal.Circular
import DeskCalculator.Proofs.Accuracy
import DeskCalculator.Proofs.CircleConstant
import DeskCalculator.Proofs.SineCosine

/-!
# Sine and cosine of an angle in radians

An angle is taken with as many further digits as it has before its point, and so is the circle
constant. What the digits of the constant are off by is multiplied by the number of turns that are
taken away, which the further digits make up for. The reduced angle is thus off by a few units of
the digits that are worked with, and so are sine and cosine, which do not magnify errors. An
argument that is answered at once is so small that the next term of its series lies below the digits
that are kept.
-/

set_option autoImplicit false

namespace DeskCalculator

open DeskCalculator.Natural DeskCalculator.FixedPoint

/-- The digits of the circle constant that are known were computed, and all digits that are worked
with are counted in 32 bits. -/
structure Context.Sound (c : Context) : Prop where
  computed : Computed computePi c.known.pi
  counted : Counted c.known.pi
  digits_le : c.digits ≤ 2000000000

theorem Context.sound_afterRequests {digits : ℕ} (positive : 0 < digits)
    (hdigits : digits ≤ 2000000000) (requests : List ℕ)
    (h : ∀ request ∈ requests, request + extraDigits < UInt32.size) :
    ({ digits := digits, positive := positive,
       known := { pi := afterRequests computePi requests } } : Context).Sound where
  computed := computed_afterRequests computePi requests
  counted := counted_afterRequests computePi h
  digits_le := hdigits

namespace Decimal

variable {c : Context} {x : Decimal} {w : ℕ}

/-! ### Whole turns -/

theorem exists_turns (scaled : ℤ) {half : ℤ} (hhalf : 0 < half) : ∃ m : ℤ,
    (let r := scaled - scaled.tdiv (half * 2) * (half * 2)
      if half < r then r - half * 2 else if r < -half then r + half * 2 else r) =
      scaled - m * (half * 2) ∧ |scaled - m * (half * 2)| ≤ half := by
  have hmod := Int.mul_tdiv_add_tmod scaled (half * 2)
  have hlow := Int.lt_tmod_of_pos scaled (by omega : 0 < half * 2)
  have hhigh := Int.tmod_lt_of_pos scaled (by omega : 0 < half * 2)
  rw [mul_comm] at hmod
  generalize scaled.tdiv (half * 2) = n at *
  have hr : scaled - n * (half * 2) = scaled.tmod (half * 2) := by omega
  simp only [hr]
  generalize scaled.tmod (half * 2) = r at *
  split
  · exact ⟨n + 1, by linarith, abs_le.mpr ⟨by linarith, by linarith⟩⟩
  · split
    · exact ⟨n - 1, by linarith, abs_le.mpr ⟨by linarith, by linarith⟩⟩
    · exact ⟨n, hr.symm, abs_le.mpr ⟨by linarith, by linarith⟩⟩

section

variable {half scaled m A S T : ℝ} (hS : 10 ^ 10 ≤ S) (hT : 1 ≤ T)
  (hpi : |half - Real.pi * (S * T)| ≤ 10) (hrest : |scaled - m * (half * 2)| ≤ half)

include hS hT hpi

theorem half_bounds : 3 * (S * T) ≤ half ∧ half ≤ 16 / 5 * S * T := by
  have hST : (10 : ℝ) ^ 10 ≤ S * T := by nlinarith
  have hlow := mul_le_mul_of_nonneg_right Real.pi_gt_d2.le (by linarith : 0 ≤ S * T)
  have hhigh := mul_le_mul_of_nonneg_right Real.pi_lt_d2.le (by linarith : 0 ≤ S * T)
  obtain ⟨hpi1, hpi2⟩ := abs_le.mp hpi
  constructor <;> linarith

include hrest

theorem abs_turns_le (hscaled : |scaled| ≤ T * (S * T)) : |m| ≤ T / 6 + 1 / 2 := by
  obtain ⟨hhalf, -⟩ := half_bounds hS hT hpi
  have hpos : 0 < half * 2 := by nlinarith
  have hturns : |m| * (half * 2) ≤ T * (S * T) + half := by
    calc |m| * (half * 2) = |m * (half * 2)| := by rw [abs_mul, abs_of_pos hpos]
      _ = |scaled - (scaled - m * (half * 2))| := by rw [sub_sub_cancel]
      _ ≤ |scaled| + |scaled - m * (half * 2)| := abs_sub _ _
      _ ≤ T * (S * T) + half := add_le_add hscaled hrest
  have hfit : T * (S * T) ≤ T / 6 * (half * 2) := by nlinarith
  refine le_of_mul_le_mul_right ?_ hpos
  linarith

theorem abs_rest_sub_le (hscaled : |scaled| ≤ T * (S * T)) (hA : |scaled - A * (S * T)| < 1) :
    |scaled - m * (half * 2) - (A - m * (2 * Real.pi)) * S * T| ≤ 15 * T := by
  have hturns := abs_turns_le hS hT hpi hrest hscaled
  have hoff : |m * (2 * (half - Real.pi * (S * T)))| ≤ |m| * 20 := by
    rw [abs_mul, abs_mul, abs_of_pos (by norm_num : (0 : ℝ) < 2)]
    exact mul_le_mul_of_nonneg_left (by linarith) (abs_nonneg m)
  calc |scaled - m * (half * 2) - (A - m * (2 * Real.pi)) * S * T|
      = |scaled - A * (S * T) - m * (2 * (half - Real.pi * (S * T)))| := by ring_nf
    _ ≤ |scaled - A * (S * T)| + |m * (2 * (half - Real.pi * (S * T)))| := abs_sub _ _
    _ ≤ 15 * T := by linarith

end

/-- The reduced angle differs from the angle by whole turns, up to sixteen units. -/
theorem exists_reducedAngle (hc : c.Sound) (hx : x.integerDigits ≤ maxAngleDigits) (hw : 10 ≤ w)
    (hsize : w ≤ 4000000000) : ∃ angle m : ℤ, x.reducedAngle w c = some angle ∧
      |(angle : ℝ)| ≤ 16 / 5 * 10 ^ w ∧
      |(angle : ℝ) - (x.value - m * (2 * Real.pi)) * 10 ^ w| ≤ 16 := by
  have hmax : maxAngleDigits = 2000 := rfl
  have hextra : extraDigits = 10 := rfl
  have hword : UInt32.size = 4294967296 := rfl
  have hpi := abs_piDigits_sub_le hc.computed hc.counted
    (by omega : w + x.integerDigits + extraDigits < UInt32.size)
  have hscaled := abs_toScaled_sub_lt (x := x) (w := w + x.integerDigits) (by omega)
  have hmagnitude := abs_toScaled_le (x := x) (w := w + x.integerDigits) (by omega)
  have hvalue : |(x.value : ℝ)| < tens x.integerDigits := by exact_mod_cast abs_value_lt_tens x
  have hw10 : (10 : ℝ) ^ 10 ≤ 10 ^ w := pow_le_pow_right₀ (by norm_num) hw
  have hT0 := tens_pos x.integerDigits
  have hT1 : (1 : ℝ) ≤ tens x.integerDigits := by exact_mod_cast hT0
  have hpow : (10 : ℝ) ^ (w + x.integerDigits) = 10 ^ w * tens x.integerDigits := by
    rw [pow_add, cast_tens]
  unfold reducedAngle
  simp only
  rw [if_neg (by omega)]
  rw [hpow] at hpi hscaled hmagnitude
  generalize c.known.piDigits (w + x.integerDigits) = half at *
  generalize x.toScaled (w + x.integerDigits) = scaled at *
  generalize tens x.integerDigits = T at *
  generalize (10 : ℝ) ^ w = S at *
  have hbounds := half_bounds hw10 hT1 hpi
  have hhalf : 0 < half := by
    have h : (0 : ℝ) < half := by nlinarith
    exact_mod_cast h
  obtain ⟨m, hm, hrest⟩ := exists_turns scaled hhalf
  have hrestr : |(scaled : ℝ) - m * (half * 2)| ≤ half := by exact_mod_cast hrest
  have hfit : |(scaled : ℝ)| ≤ T * (S * T) :=
    hmagnitude.trans (mul_le_mul_of_nonneg_right hvalue.le (by nlinarith))
  have hoff := abs_rest_sub_le hw10 hT1 hpi hrestr hfit hscaled
  simp only at hm
  rw [hm]
  have hTpos : (0 : ℝ) < T := by linarith
  refine ⟨_, m, rfl, ?_, ?_⟩
  · refine (abs_tdiv_le _ T).trans ((div_le_iff₀ hTpos).mpr ?_)
    push_cast
    exact hrestr.trans hbounds.2
  · have h := abs_tdiv_sub_le hT0 (z := scaled - m * (half * 2)) (by push_cast; exact hoff)
    rw [mul_div_cancel_right₀ _ hTpos.ne'] at h
    linarith

/-! ### The reduced angle put into the series -/

/-- The integer function `K` is the function `F` of scaled integers within half a turn, and `F` is
bounded, repeats with every turn and does not magnify errors. -/
structure IsCircular (K : ℤ → ℕ → ℤ) (F : ℝ → ℝ) : Prop where
  near : ∀ (x : ℤ) (w : ℕ), |(x : ℝ)| ≤ 16 / 5 * powerOfTen w →
    |(K x w : ℝ) - powerOfTen w * F (x / powerOfTen w)| ≤ 17 * (4 * w + 6)
  bounded : ∀ a, |F a| ≤ 1
  periodic : ∀ (a : ℝ) (n : ℤ), F (a - n * (2 * Real.pi)) = F a
  lipschitz : ∀ a b, |F a - F b| ≤ |a - b|

theorem isCircular_sin : IsCircular FixedPoint.sin Real.sin where
  near _ _ := abs_sin_sub_le
  bounded := Real.abs_sin_le_one
  periodic := Real.sin_sub_int_mul_two_pi
  lipschitz := Real.abs_sin_sub_sin_le

theorem isCircular_cos : IsCircular FixedPoint.cos Real.cos where
  near _ _ := abs_cos_sub_le
  bounded := Real.abs_cos_le_one
  periodic := Real.cos_sub_int_mul_two_pi
  lipschitz := Real.abs_cos_sub_cos_le

theorem cast_least_le (hc : c.Sound) {q r : ℚ} (h : |r - q| ≤ 10 ^ (-maxAdjusted)) :
    |(r : ℝ) - q| ≤ 1 / 10 ^ c.digits := by
  have hdigits := hc.digits_le
  have hmax : maxAdjusted = 9000000000000000 := rfl
  have hle : (10 : ℚ) ^ (-maxAdjusted) ≤ 10 ^ (-(c.digits : ℤ)) := ten_zpow_le.mpr (by omega)
  rw [zpow_neg _ (c.digits : ℤ), zpow_natCast, ← one_div] at hle
  have hreal := (Rat.cast_le (K := ℝ)).mpr (h.trans hle)
  push_cast at hreal
  exact hreal

theorem Rounds.exists_within {q : ℚ} {o : Option Decimal} (hc : c.Sound) (h : Rounds c q o)
    (hq : |q| < 10) : ∃ v : Decimal, o = some v ∧ |(v.value : ℝ) - q| ≤ 5 / 10 ^ c.digits := by
  have hrange : (10 : ℚ) ^ (1 : ℤ) ≤ 10 ^ maxAdjusted := ten_zpow_le.mpr (by decide)
  rw [zpow_one] at hrange
  obtain ⟨v, ho, hv⟩ := h.exists_value (hq.trans_le hrange)
  refine ⟨v, ho, ?_⟩
  rcases hv with hv | hv
  · exact hv.abs_cast_sub_le hq
  · refine (cast_least_le hc hv).trans (div_le_div_of_nonneg_right (by norm_num) (by positivity))

theorem Rounds.exists_relative {q : ℚ} {o : Option Decimal} (hc : c.Sound)
    (h : Rounds c q o) (hq : |q| < 10 ^ maxAdjusted) :
    ∃ v : Decimal, o = some v ∧ |(v.value : ℝ) - q| ≤ (5 * |(q : ℝ)| + 1) / 10 ^ c.digits := by
  obtain ⟨v, ho, hv⟩ := h.exists_value hq
  refine ⟨v, ho, ?_⟩
  rcases hv with hv | hv
  · exact hv.abs_cast_sub_le_mul.trans (div_le_div_of_nonneg_right (by linarith) (by positivity))
  · exact (cast_least_le hc hv).trans
      (div_le_div_of_nonneg_right (by linarith [abs_nonneg (q : ℝ)]) (by positivity))

theorem exists_finish (hc : c.Sound) {m : ℤ} {y : ℝ} (hw : c.digits + 10 ≤ w) (hy : |y| ≤ 1)
    (h : |(m : ℝ) - 10 ^ w * y| ≤ 300000000000) :
    ∃ v : Decimal, finish m (-w) c = some v ∧ |(v.value : ℝ) - y| ≤ 35 / 10 ^ c.digits := by
  have hpos : (0 : ℝ) < 10 ^ w := by positivity
  have hpow : (10 : ℝ) ^ c.digits * 10 ^ 10 ≤ 10 ^ w := by
    rw [← pow_add]
    exact pow_le_pow_right₀ (by norm_num) hw
  have hten : (10 : ℝ) ≤ 10 ^ c.digits := le_self_pow₀ (by norm_num) c.positive.ne'
  have hquotient : |(m : ℝ) / 10 ^ w - y| ≤ 30 / 10 ^ c.digits := by
    rw [show (m : ℝ) / 10 ^ w - y = (m - 10 ^ w * y) / 10 ^ w by field_simp, abs_div,
      abs_of_pos hpos, div_le_div_iff₀ hpos (by positivity)]
    nlinarith
  have hthree : (30 : ℝ) / 10 ^ c.digits ≤ 3 := by
    rw [div_le_iff₀ (by positivity)]
    linarith
  have hlt : |(m : ℚ) * 10 ^ (-(w : ℤ))| < 10 := by
    have hreal : |(((m : ℚ) * 10 ^ (-(w : ℤ)) : ℚ) : ℝ)| < 10 := by
      rw [cast_scaled]
      linarith [abs_sub_abs_le_abs_sub ((m : ℝ) / 10 ^ w) y]
    exact_mod_cast hreal
  obtain ⟨v, hv, hnear⟩ := (rounds_finish m (-w)).exists_within hc hlt
  refine ⟨v, hv, ?_⟩
  rw [cast_scaled] at hnear
  calc |(v.value : ℝ) - y| ≤ |(v.value : ℝ) - m / 10 ^ w| + |(m : ℝ) / 10 ^ w - y| :=
        abs_sub_le _ _ _
    _ ≤ 5 / 10 ^ c.digits + 30 / 10 ^ c.digits := add_le_add hnear hquotient
    _ = 35 / 10 ^ c.digits := by ring

theorem IsCircular.exists_value {K : ℤ → ℕ → ℤ} {F : ℝ → ℝ} (h : IsCircular K F) (hc : c.Sound)
    (hx : x.integerDigits ≤ maxAngleDigits) (hw : c.digits + 10 ≤ w) (hsize : w ≤ 4000000000) :
    ∃ v : Decimal, ((x.reducedAngle w c).bind fun angle => finish (K angle w) (-w) c) = some v ∧
      |(v.value : ℝ) - F x.value| ≤ 35 / 10 ^ c.digits := by
  obtain ⟨angle, m, hangle, hbound, hoff⟩ := exists_reducedAngle hc hx (by omega) hsize
  have hpos : (0 : ℝ) < 10 ^ w := by positivity
  have hscale : ((powerOfTen w : ℕ) : ℝ) = 10 ^ w := by
    have hword : UInt32.size = 4294967296 := rfl
    rw [powerOfTen_eq w (by omega), cast_tens]
  have hnear := h.near angle w (hscale ▸ hbound)
  rw [hscale] at hnear
  have hturn : |F (angle / 10 ^ w) - F x.value| ≤ 16 / 10 ^ w := by
    rw [← h.periodic x.value m]
    refine (h.lipschitz _ _).trans ?_
    rw [show (angle : ℝ) / 10 ^ w - (x.value - m * (2 * Real.pi)) =
        (angle - (x.value - m * (2 * Real.pi)) * 10 ^ w) / 10 ^ w by field_simp,
      abs_div, abs_of_pos hpos]
    exact div_le_div_of_nonneg_right hoff hpos.le
  rw [hangle]
  refine exists_finish hc hw (h.bounded _) ?_
  have hsplit : |10 ^ w * F (angle / 10 ^ w) - 10 ^ w * F x.value| ≤ 16 := by
    rw [← mul_sub, abs_mul, abs_of_pos hpos]
    exact (le_div_iff₀' hpos).mp hturn
  have hcount : (w : ℝ) ≤ 4000000000 := by exact_mod_cast hsize
  linarith [abs_sub_le ((K angle w : ℤ) : ℝ) (10 ^ w * F (angle / 10 ^ w)) (10 ^ w * F x.value)]

/-! ### Arguments that are answered at once -/

theorem abs_value_of_isNegligible (h : x.isNegligible c = true) :
    |(x.value : ℝ)| ≤ 1 / 10 ∧ (x.value : ℝ) ^ 2 ≤ 1 / 10 ^ c.digits / 10 := by
  by_cases hx : x.value = 0
  · rw [hx, Rat.cast_zero, abs_zero, zero_pow two_ne_zero]
    exact ⟨by norm_num, by positivity⟩
  rw [isNegligible, Bool.or_eq_true, isZero_iff, decide_eq_true_iff, or_iff_right hx] at h
  have hlt : |x.value| < 10 ^ (-((c.digits / 2 : ℕ) : ℤ) - 1) := (adjusted_lt_iff hx).mp h
  constructor
  · have hle : (10 : ℚ) ^ (-((c.digits / 2 : ℕ) : ℤ) - 1) ≤ 10 ^ (-1 : ℤ) :=
      ten_zpow_le.mpr (by omega)
    rw [zpow_neg_one, ← one_div] at hle
    have hreal := (Rat.cast_le (K := ℝ)).mpr (hlt.trans_le hle).le
    push_cast at hreal
    exact hreal
  · have hle : (10 : ℚ) ^ (-((c.digits / 2 : ℕ) : ℤ) - 1 + (-((c.digits / 2 : ℕ) : ℤ) - 1)) ≤
        10 ^ (-(c.digits : ℤ) + -1) := ten_zpow_le.mpr (by omega)
    rw [ten_zpow_add, ten_zpow_add, zpow_neg_one, zpow_neg, zpow_natCast] at hle
    have hsquare : x.value ^ 2 ≤ 1 / 10 ^ c.digits / 10 := by
      rw [← sq_abs, pow_two, one_div, div_eq_mul_inv]
      exact (mul_self_le_mul_self (abs_nonneg _) hlt.le).trans hle
    have hreal := (Rat.cast_le (K := ℝ)).mpr hsquare
    push_cast at hreal
    exact hreal

theorem abs_sin_sub_self_le {r : ℝ} (hr : |r| ≤ 1 / 10) : |Real.sin r - r| ≤ r ^ 2 := by
  have hbound := Real.sin_bound (hr.trans (by norm_num))
  have hcube : |r ^ 3| ≤ r ^ 2 / 10 := by
    rw [pow_succ, abs_mul, abs_sq]
    nlinarith [sq_nonneg r]
  have hfifth : |r| ^ 5 ≤ r ^ 2 := by
    rw [show 5 = 2 + 3 from rfl, pow_add, sq_abs]
    have hle : |r| ^ 3 ≤ 1 := pow_le_one₀ (abs_nonneg r) (hr.trans (by norm_num))
    nlinarith [sq_nonneg r]
  calc |Real.sin r - r| = |Real.sin r - (r - r ^ 3 / 6) - r ^ 3 / 6| := by ring_nf
    _ ≤ |Real.sin r - (r - r ^ 3 / 6)| + |r ^ 3 / 6| := abs_sub _ _
    _ ≤ r ^ 2 := by
      rw [abs_div, abs_of_pos (by norm_num : (0 : ℝ) < 6)]
      linarith [sq_nonneg r]

theorem angleDigits_bounds (hc : c.Sound) (h : ¬x.isNegligible c = true) :
    c.digits + 10 ≤ x.angleDigits c ∧ x.angleDigits c ≤ 4000000000 := by
  have hdigits := hc.digits_le
  rw [isNegligible, Bool.or_eq_true, not_or, decide_eq_true_iff] at h
  rw [angleDigits, guardDigits]
  omega

/-- An angle that is not too large has a sine, off by less than two units of the last digit but
one. -/
theorem exists_sin (hc : c.Sound) (hx : x.integerDigits ≤ maxAngleDigits) :
    ∃ v : Decimal, x.sin c = some v ∧ |(v.value : ℝ) - Real.sin x.value| ≤ 35 / 10 ^ c.digits := by
  rw [sin]
  split
  · next h =>
    obtain ⟨hsmall, hsquare⟩ := abs_value_of_isNegligible h
    have hlt : |x.value| < 10 := by
      have hreal : |(x.value : ℝ)| < 10 := by linarith
      exact_mod_cast hreal
    obtain ⟨v, hv, hoff⟩ := (rounds_round x).exists_within hc hlt
    refine ⟨v, hv, ?_⟩
    have hself := abs_sin_sub_self_le hsmall
    rw [abs_sub_comm] at hself
    have hunit : (0 : ℝ) < 1 / 10 ^ c.digits := by positivity
    calc |(v.value : ℝ) - Real.sin x.value|
        ≤ |(v.value : ℝ) - x.value| + |(x.value : ℝ) - Real.sin x.value| := abs_sub_le _ _ _
      _ ≤ 5 / 10 ^ c.digits + 1 / 10 ^ c.digits / 10 := add_le_add hoff (hself.trans hsquare)
      _ ≤ 35 / 10 ^ c.digits := by
        rw [div_eq_mul_one_div 5, div_eq_mul_one_div 35]
        linarith
  · next h =>
    obtain ⟨hw, hsize⟩ := angleDigits_bounds hc h
    exact isCircular_sin.exists_value hc hx hw hsize

theorem exists_cos (hc : c.Sound) (hx : x.integerDigits ≤ maxAngleDigits) :
    ∃ v : Decimal, x.cos c = some v ∧ |(v.value : ℝ) - Real.cos x.value| ≤ 35 / 10 ^ c.digits := by
  rw [cos]
  split
  · next h =>
    obtain ⟨-, hsquare⟩ := abs_value_of_isNegligible h
    refine ⟨one, rfl, ?_⟩
    have hunit : (0 : ℝ) < 1 / 10 ^ c.digits := by positivity
    have hlow := Real.one_sub_sq_div_two_le_cos (x := x.value)
    rw [value_one, Rat.cast_one, abs_of_nonneg (sub_nonneg.mpr (Real.cos_le_one _)),
      div_eq_mul_one_div 35]
    linarith
  · next h =>
    obtain ⟨hw, hsize⟩ := angleDigits_bounds hc h
    exact isCircular_cos.exists_value hc hx hw hsize

/-! ### Angles that are not reduced -/

theorem integerDigits_le_of_isNegligible (h : x.isNegligible c = true) :
    x.integerDigits ≤ maxAngleDigits := by
  have hsmall := (abs_value_of_isNegligible h).1
  exact (integerDigits_le (n := 1) one_pos (by linarith)).trans (by decide)

theorem integerDigits_le_of_reducedAngle {v : Decimal} {f : ℤ → Option Decimal}
    (h : (x.reducedAngle w c).bind f = some v) : x.integerDigits ≤ maxAngleDigits := by
  by_contra hlt
  simp [reducedAngle, not_le.mp hlt] at h

theorem integerDigits_le_of_sin {v : Decimal} (h : x.sin c = some v) :
    x.integerDigits ≤ maxAngleDigits := by
  rw [sin] at h
  split at h
  · next hx => exact integerDigits_le_of_isNegligible hx
  · exact integerDigits_le_of_reducedAngle h

theorem integerDigits_le_of_cos {v : Decimal} (h : x.cos c = some v) :
    x.integerDigits ≤ maxAngleDigits := by
  rw [cos] at h
  split at h
  · next hx => exact integerDigits_le_of_isNegligible hx
  · exact integerDigits_le_of_reducedAngle h

end Decimal

end DeskCalculator
