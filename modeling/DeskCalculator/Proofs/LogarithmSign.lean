import DeskCalculator.Proofs.LogarithmAccuracy
import DeskCalculator.Proofs.Parity

/-!
# The sign of a logarithm

The working digits of a logarithm are counted after the point, whatever the distance of the number
from one is. So the logarithm of a number just above one is lost: four roots and the argument of the
series are cut down, and all of a number less than 63 units above one is gone after them. From there
on the series has a first term, and the logarithm is positive.

Below one the logarithm is that of the significand without a multiple of the logarithm of ten. The
first is never overestimated, so the difference is never positive as long as the second is known to
the last unit, and it is negative a few units below one.
-/

set_option autoImplicit false

namespace DeskCalculator

open DeskCalculator.Natural DeskCalculator.Decimal

namespace FixedPoint

variable {a scale w : ℕ}

/-! ### What the roots leave -/

theorem floorSqrt_le_iff {m : ℕ} (hscale : (m + 1) ^ 2 ≤ scale) :
    floorSqrt (a * scale) ≤ scale + m ↔ a ≤ scale + 2 * (m + 1) := by
  obtain ⟨hlow, hhigh⟩ := floorSqrt_bounds (a * scale)
  have hpos : 0 < scale := (Nat.pow_pos (Nat.succ_pos m)).trans_le hscale
  constructor
  · intro hroot
    have hlt : a * scale < (scale + 2 * (m + 1) + 1) * scale := by
      calc a * scale < (floorSqrt (a * scale) + 1) ^ 2 := hhigh
        _ ≤ (scale + m + 1) ^ 2 := Nat.pow_le_pow_left (by omega) 2
        _ = (scale + 2 * (m + 1)) * scale + (m + 1) ^ 2 := by ring
        _ ≤ (scale + 2 * (m + 1) + 1) * scale := by linarith
    exact Nat.lt_succ_iff.mp (lt_of_mul_lt_mul_right hlt (Nat.zero_le _))
  · intro ha
    refine Nat.lt_succ_iff.mp (lt_of_pow_lt_pow_left₀ 2 (Nat.zero_le _) ?_)
    calc floorSqrt (a * scale) ^ 2 ≤ a * scale := hlow
      _ ≤ (scale + 2 * (m + 1)) * scale := Nat.mul_le_mul_right _ ha
      _ < (scale + 2 * (m + 1)) * scale + (m + 1) ^ 2 :=
          Nat.lt_add_of_pos_right (Nat.pow_pos (Nat.succ_pos m))
      _ = (scale + m + 1) ^ 2 := by ring

theorem rootTimes_le_iff (n : ℕ) (hscale : 4 ^ (n + 1) ≤ scale) :
    rootTimes scale n a ≤ scale + 2 ↔ a ≤ scale + (2 ^ (n + 2) - 2) := by
  induction n generalizing a with
  | zero => rfl
  | succ n ih =>
    have htwo : 1 ≤ 2 ^ n := Nat.one_le_two_pow
    have hfour : 2 ^ (n + 2) = 4 * 2 ^ n := by ring
    have hdouble : 2 ^ (n + 1 + 2) = 2 * 2 ^ (n + 2) := by ring
    have hsquare : (2 ^ (n + 2) - 2 + 1) ^ 2 ≤ scale := by
      calc (2 ^ (n + 2) - 2 + 1) ^ 2 ≤ (2 ^ (n + 2)) ^ 2 := Nat.pow_le_pow_left (by omega) 2
        _ = 4 ^ (n + 1 + 1) := pow_right_comm 2 (n + 2) 2
        _ ≤ scale := hscale
    rw [rootTimes, ih ((Nat.pow_le_pow_right (by decide) (Nat.le_succ _)).trans hscale),
      floorSqrt_le_iff hsquare]
    omega

theorem artanhArgument_eq_zero_iff (ha : scale ≤ a) (hscale : 3 ≤ scale) :
    artanhArgument a scale = 0 ↔ a ≤ scale + 2 := by
  obtain ⟨d, rfl⟩ := Nat.exists_eq_add_of_le ha
  have hd : (((scale + d : ℕ) : ℤ) - scale).natAbs = d := by omega
  rw [artanhArgument, hd, Nat.div_eq_zero_iff]
  constructor
  · intro h
    have hlt : d * scale < scale + d + scale := by omega
    by_contra hlarge
    nlinarith
  · intro h
    exact .inr (by nlinarith)

theorem total_oddSeries_eq_zero_iff {z : ℕ} (small : z ≤ scale) :
    total (oddSeries z scale small) = 0 ↔ z = 0 := by
  rw [oddSeries, total]
  constructor
  · omega
  · rintro rfl
    rw [oddTerms_zero]
    rfl

/-- The logarithm of a number is lost up to 62 units above one, and positive from there on. -/
theorem ln_sign (hw : 4 ≤ w) (hlong : w < UInt32.size) (ha : 10 ^ w ≤ a) :
    (a ≤ 10 ^ w + 62 → ln a w = 0) ∧ (10 ^ w + 62 < a → 32 ≤ ln a w) := by
  have hpow : powerOfTen w = 10 ^ w := powerOfTen_eq w hlong
  have hscale : 4 ^ (rootings + 1) ≤ 10 ^ w :=
    le_trans (by decide) (Nat.pow_le_pow_right (by decide) hw)
  have hthree : 3 ≤ 10 ^ w := le_trans (by decide) hscale
  have hroot := (rootTimes_bounds (by omega) rootings ha).1
  have hleft := rootTimes_le_iff (a := a) rootings hscale
  rw [ln_eq, hpow]
  generalize rootTimes (10 ^ w) rootings a = root at *
  generalize 10 ^ w = scale at *
  have htotal := total_oddSeries_eq_zero_iff (artanhArgument_le root scale)
  rw [artanhArgument_eq_zero_iff hroot hthree, hleft] at htotal
  rw [withSign, if_neg (by omega)]
  norm_num [rootings] at htotal ⊢
  exact ⟨htotal.mpr, fun h => Nat.pos_of_ne_zero fun h0 => absurd (htotal.mp h0) (by omega)⟩

/-! ### The logarithm of ten from below -/

/-- As long as the terms of the series are not too many, the logarithm of ten is known to the unit:
an integer that is below it by a tenth of a unit is not above its digits. -/
theorem le_ln10Digits {known : Constants} (hcomputed : Computed computeLn10 known.ln10)
    {digits : ℕ} (hdigits : digits ≤ 50000030) (hne : known.ln10Digits digits ≠ 0) {l : ℤ}
    (hl : (l : ℝ) ≤ Real.log 10 * 10 ^ digits - 1 / 10) : l ≤ known.ln10Digits digits := by
  have hword : UInt32.size = 4294967296 := rfl
  have hextra : extraDigits = 10 := rfl
  obtain ⟨cut, hcut, heq⟩ := ln10Digits_eq_tdiv hcomputed (by omega) hne
  have hpow : powerOfTen (digits + cut + extraDigits) = 10 ^ (digits + cut + extraDigits) :=
    powerOfTen_eq _ hcut
  obtain ⟨-, hsum⟩ := artanhInverse_sum_bounds hpow.le
  rw [hpow] at hsum
  rw [heq, computeLn10, hpow]
  generalize 3 * (2 * artanhInverse 3 _ _) + 2 * artanhInverse 9 _ _ = sum at *
  have hcuts : (10 : ℝ) ^ (digits + cut + extraDigits) = 10 ^ digits * 10 ^ cut * 10 ^ 10 := by
    rw [pow_add, pow_add, hextra]
  have hcount : ((digits + cut + extraDigits : ℕ) : ℝ) ≤ 50000040 + cut := by
    exact_mod_cast (by omega)
  have hmany : (cut : ℝ) + 1 ≤ 10 ^ cut := by exact_mod_cast Nat.lt_pow_self (by decide)
  have hunits : (l : ℝ) * (10 ^ cut * 10 ^ 10) ≤ sum := by
    push_cast at hsum hcount
    rw [hcuts] at hsum
    have hscaled := mul_le_mul_of_nonneg_right hl
      (by positivity : (0 : ℝ) ≤ 10 ^ cut * 10 ^ 10)
    linarith [Nat.cast_nonneg (α := ℝ) cut]
  have hsumz : l * (tens cut * tens extraDigits) ≤ (sum : ℤ) := by
    rw [tens_eq_pow, tens_eq_pow, hextra]
    exact_mod_cast hunits
  have htens : ∀ k, (0 : ℤ) < (tens k : ℕ) := fun k => by exact_mod_cast tens_pos k
  rw [← Int.ofNat_tdiv, Int.tdiv_eq_ediv_of_nonneg (Int.natCast_nonneg _), Int.natCast_ediv,
    Int.le_ediv_iff_mul_le (htens _), Int.le_ediv_iff_mul_le (htens _), mul_assoc]
  exact hsumz

end FixedPoint

namespace Decimal

open DeskCalculator.FixedPoint

variable {x : Decimal} {c : Context}

/-! ### The parts of a logarithm -/

theorem Rounds.exists_sign {q : ℚ} {o : Option Decimal} (h : Rounds c q o)
    (hhigh : |q| < 10 ^ maxAdjusted) (hlow : q ≠ 0 → 10 ^ (-maxAdjusted) ≤ |q|) :
    ∃ r : Decimal, o = some r ∧ SignType.sign r.value = SignType.sign q := by
  obtain ⟨r, -, hr, rfl⟩ := h
  refine ⟨r, ?_, hr.sign_eq c.positive⟩
  by_cases hq : q = 0
  · have hzero : r = zero := value_injective ((hr.unique (.inl ⟨hq, rfl⟩)).trans value_zero.symm)
    rw [hzero]
    rfl
  · exact bounded_of_isRounding c.positive hr hhigh fun _ => hlow hq

def significandLog (x : Decimal) (c : Context) : ℤ :=
  FixedPoint.ln (x.significand.toScaled (x.logarithmDigits c)).toNat (x.logarithmDigits c)

def tenLog (x : Decimal) (c : Context) : ℤ := c.known.ln10Digits (x.logarithmDigits c)

def lnUnits (x : Decimal) (c : Context) : ℤ := x.significandLog c + x.tenLog c * x.adjusted

def log10Units (x : Decimal) (c : Context) : ℤ :=
  (x.significandLog c * 10 ^ x.logarithmDigits c).tdiv (x.tenLog c) +
    x.adjusted * 10 ^ x.logarithmDigits c

/-- From one on the two have the same sign, since a first term of the series is not lost in the
division. Below one a negative multiple is added to both, and the first decides. -/
theorem log10Units_sign {s l t e : ℤ} (hs : 0 < s) (hl : l = 0 ∨ 32 ≤ l) (ht : 0 < t)
    (hts : t ≤ 32 * s) :
    (0 ≤ e → SignType.sign ((l * s).tdiv t + e * s) = SignType.sign (l + t * e)) ∧
      (l + t * e < 0 → (l * s).tdiv t + e * s < 0) ∧
      (l + t * e ≤ 0 → (l * s).tdiv t + e * s ≤ 0) := by
  have hl0 : 0 ≤ l := by omega
  rw [Int.tdiv_eq_ediv_of_nonneg (mul_nonneg hl0 hs.le)]
  refine ⟨fun he => ?_, fun h => ?_, fun h => ?_⟩
  · rcases he.lt_or_eq with he | rfl
    · have hdiv : 0 ≤ l * s / t := Int.ediv_nonneg (mul_nonneg hl0 hs.le) ht.le
      rw [sign_pos (add_pos_of_nonneg_of_pos hdiv (mul_pos he hs)),
        sign_pos (add_pos_of_nonneg_of_pos hl0 (mul_pos ht he))]
    · rw [zero_mul, mul_zero, add_zero, add_zero]
      rcases hl with rfl | hl
      · rw [zero_mul, Int.zero_ediv]
      · have hdiv : 1 ≤ l * s / t := Int.le_ediv_of_mul_le ht (by nlinarith)
        rw [sign_pos (by omega : 0 < l), sign_pos (by omega : 0 < l * s / t)]
  · have hlt : l * s < -e * s * t := by nlinarith
    linarith [Int.ediv_lt_of_lt_mul ht hlt]
  · have hle : l * s < (-e * s + 1) * t := by nlinarith
    linarith [Int.ediv_lt_of_lt_mul ht hle]

theorem exists_finish_sign {u : ℤ} {w : ℕ} (hw : (w : ℤ) ≤ maxAdjusted)
    (hu : |u| ≤ 10 ^ 17 * 10 ^ w) :
    ∃ r : Decimal, finish u (-w) c = some r ∧ SignType.sign r.value = SignType.sign u := by
  have hscale := ten_zpow_pos (-(w : ℤ))
  have habs : |(u : ℚ) * 10 ^ (-(w : ℤ))| = |u| * 10 ^ (-(w : ℤ)) := by
    rw [abs_mul, abs_of_pos hscale, Int.cast_abs]
  have hcancel : (10 : ℚ) ^ w * 10 ^ (-(w : ℤ)) = 1 := by
    rw [← zpow_natCast, ← ten_zpow_add, add_neg_cancel, zpow_zero]
  have hhigh : |(u : ℚ) * 10 ^ (-(w : ℤ))| < 10 ^ maxAdjusted := by
    have hle : (|u| : ℚ) ≤ 10 ^ 17 * 10 ^ w := by exact_mod_cast hu
    calc |(u : ℚ) * 10 ^ (-(w : ℤ))| = |u| * 10 ^ (-(w : ℤ)) := habs
      _ ≤ 10 ^ 17 * 10 ^ w * 10 ^ (-(w : ℤ)) := by
          exact_mod_cast mul_le_mul_of_nonneg_right hle hscale.le
      _ = 10 ^ (17 : ℤ) := by rw [mul_assoc, hcancel, mul_one]; norm_num
      _ < 10 ^ maxAdjusted := ten_zpow_lt.mpr (by decide)
  have hlow : (u : ℚ) * 10 ^ (-(w : ℤ)) ≠ 0 →
      10 ^ (-maxAdjusted) ≤ |(u : ℚ) * 10 ^ (-(w : ℤ))| := by
    intro hne
    have hu0 : u ≠ 0 := by
      rintro rfl
      simp at hne
    have hone : (1 : ℚ) ≤ |u| := by exact_mod_cast Int.one_le_abs hu0
    calc (10 : ℚ) ^ (-maxAdjusted) ≤ 10 ^ (-(w : ℤ)) := ten_zpow_le.mpr (by omega)
      _ ≤ |u| * 10 ^ (-(w : ℤ)) := le_mul_of_one_le_left hscale.le hone
      _ = |(u : ℚ) * 10 ^ (-(w : ℤ))| := habs.symm
  obtain ⟨r, ho, hr⟩ := (rounds_finish (c := c) u (-w)).exists_sign hhigh hlow
  refine ⟨r, ho, hr.trans ?_⟩
  rw [sign_mul, sign_pos hscale, mul_one, sign_intCast]

theorem logarithmDigits_bounds (hrange : x.InRange) (c : Context) :
    c.digits + 11 ≤ x.logarithmDigits c ∧ x.logarithmDigits c ≤ c.digits + 26 := by
  have hplaces := digitCount_adjusted_le hrange
  have hpos := digitCount_pos x.adjusted.natAbs
  have hw : x.logarithmDigits c = c.digits + 10 + digitCount x.adjusted.natAbs := rfl
  omega

theorem one_le_iff_adjusted_nonneg (hx : 0 < x.value) : 1 ≤ x.value ↔ 0 ≤ x.adjusted := by
  rw [← not_lt, ← not_lt, adjusted_lt_iff hx.ne', abs_of_pos hx, zpow_zero]

section

variable (hdigits : c.digits + 40 < UInt32.size) (hrange : x.InRange) (hx : 0 < x.value)

include hdigits hrange hx

theorem significandLog_sign :
    (x.significand.value * 10 ^ x.logarithmDigits c < 10 ^ x.logarithmDigits c + 63 →
      x.significandLog c = 0) ∧
    (10 ^ x.logarithmDigits c + 63 ≤ x.significand.value * 10 ^ x.logarithmDigits c →
      32 ≤ x.significandLog c) := by
  obtain ⟨hlong, hw⟩ := logarithmDigits_bounds hrange c
  obtain ⟨a, ha, hlow, -, hbelow, habove, -⟩ :=
    exists_ln_significand hx (w := x.logarithmDigits c) (by omega)
  obtain ⟨hlost, hkept⟩ := ln_sign (by omega) (by omega) hlow
  rw [significandLog, ha]
  have hbelow' : (a : ℚ) ≤ x.significand.value * 10 ^ x.logarithmDigits c := by
    exact_mod_cast hbelow
  have habove' : x.significand.value * 10 ^ x.logarithmDigits c < a + 1 := by
    exact_mod_cast habove
  constructor
  · intro h
    refine hlost (Nat.lt_succ_iff.mp ?_)
    have hlt : (a : ℚ) < 10 ^ x.logarithmDigits c + 63 := hbelow'.trans_lt h
    exact_mod_cast hlt
  · intro h
    refine hkept ?_
    have hlt : (10 : ℚ) ^ x.logarithmDigits c + 62 < a := by linarith
    exact_mod_cast hlt

theorem significandLog_eq_zero_or : x.significandLog c = 0 ∨ 32 ≤ x.significandLog c := by
  obtain ⟨hlost, hkept⟩ := significandLog_sign hdigits hrange hx
  exact (lt_or_ge _ _).imp hlost hkept

theorem significandLog_le :
    (x.significandLog c : ℝ) ≤ Real.log x.significand.value * 10 ^ x.logarithmDigits c ∧
      (x.significandLog c : ℝ) ≤ Real.log 10 * 10 ^ x.logarithmDigits c - 1 / 10 := by
  obtain ⟨-, hw⟩ := logarithmDigits_bounds hrange c
  obtain ⟨a, ha, hlow, hhigh, hbelow, -, hlog, -⟩ :=
    exists_ln_significand hx (w := x.logarithmDigits c) (by omega)
  rw [significandLog, ha]
  have hlow' : (10 : ℝ) ^ x.logarithmDigits c ≤ a := by exact_mod_cast hlow
  have hhigh' : (a : ℝ) + 1 ≤ 10 * 10 ^ x.logarithmDigits c := by exact_mod_cast hhigh
  have hS : (0 : ℝ) < 10 ^ x.logarithmDigits c := by positivity
  generalize (10 : ℝ) ^ x.logarithmDigits c = S at *
  have hpos : 0 < (a : ℝ) / S := div_pos (by linarith) hS
  rw [mul_comm S] at hlog
  constructor
  · refine hlog.trans (mul_le_mul_of_nonneg_right ?_ hS.le)
    exact Real.log_le_log hpos ((div_le_iff₀ hS).mpr hbelow)
  · have hless := Real.log_le_sub_one_of_pos (show 0 < (a : ℝ) / S / 10 by positivity)
    rw [Real.log_div hpos.ne' (by norm_num)] at hless
    have hunit : (a : ℝ) / S ≤ 10 - 1 / S := by
      rw [div_le_iff₀ hS, sub_mul, one_div_mul_cancel hS.ne']
      linarith
    have hcancel : 1 / S * S = 1 := one_div_mul_cancel hS.ne'
    nlinarith

theorem significandLog_bounds :
    0 ≤ x.significandLog c ∧ x.significandLog c ≤ 3 * 10 ^ x.logarithmDigits c := by
  have hle := (significandLog_le hdigits hrange hx (c := c)).2
  have hS : (0 : ℝ) < 10 ^ x.logarithmDigits c := by positivity
  have hhigh : (x.significandLog c : ℝ) ≤ 3 * 10 ^ x.logarithmDigits c := by
    nlinarith [log_ten_bounds.2]
  refine ⟨?_, by exact_mod_cast hhigh⟩
  have := significandLog_eq_zero_or hdigits hrange hx (c := c)
  omega

/-! ### The sign of what is rounded -/

theorem lnUnits_of_one_le (ht : 0 < x.tenLog c) (h : 1 ≤ x.value) :
    (x.value < 1 + 63 * 10 ^ (-(c.digits : ℤ) - 11) → x.lnUnits c = 0) ∧
      (1 + 63 * 10 ^ (-(c.digits : ℤ) - 11) ≤ x.value → 0 < x.lnUnits c) := by
  obtain ⟨hlost, hkept⟩ := significandLog_sign hdigits hrange hx
  have hnonneg := (significandLog_bounds hdigits hrange hx (c := c)).1
  have hvalue := value_eq_significand_mul hx
  rw [lnUnits]
  rcases ((one_le_iff_adjusted_nonneg hx).mp h).lt_or_eq with hadjusted | hadjusted
  · have hten : 10 ≤ x.value := by
      have hle := le_abs_value hx.ne'
      rw [abs_of_pos hx] at hle
      have hpow : (10 : ℚ) ^ (1 : ℤ) ≤ 10 ^ x.adjusted := ten_zpow_le.mpr hadjusted
      rw [zpow_one] at hpow
      linarith
    have hunit : (10 : ℚ) ^ (-(c.digits : ℤ) - 11) ≤ 10 ^ (-11 : ℤ) := ten_zpow_le.mpr (by omega)
    norm_num at hunit
    exact ⟨fun hlt => by linarith, fun _ => by nlinarith⟩
  · rw [← hadjusted, zpow_zero, mul_one] at hvalue
    have hw : x.logarithmDigits c = c.digits + 11 := by
      rw [logarithmDigits, ← hadjusted, guardDigits, Int.natAbs_zero, digitCount_zero]
    have hscale : (10 : ℚ) ^ (-(c.digits : ℤ) - 11) * 10 ^ x.logarithmDigits c = 1 := by
      rw [hw, ← zpow_natCast, ← ten_zpow_add]
      push_cast
      rw [show -(c.digits : ℤ) - 11 + (c.digits + 11) = 0 by ring, zpow_zero]
    have hS : (0 : ℚ) < 10 ^ x.logarithmDigits c := by positivity
    rw [← hvalue] at hlost hkept
    rw [← hadjusted, mul_zero, add_zero]
    generalize (10 : ℚ) ^ (-(c.digits : ℤ) - 11) = u at *
    refine ⟨fun hlt => hlost (by nlinarith), fun hle => ?_⟩
    have := hkept (by nlinarith)
    omega

section

variable (hcomputed : Computed computeLn10 c.known.ln10) (hcounted : Counted c.known.ln10)

include hcomputed hcounted

omit hx in
theorem abs_tenLog_sub_le :
    |(x.tenLog c : ℝ) - Real.log 10 * 10 ^ x.logarithmDigits c| ≤ 10 := by
  obtain ⟨-, hw⟩ := logarithmDigits_bounds hrange c
  have hextra : extraDigits = 10 := rfl
  exact abs_ln10Digits_sub_le_of_counted hcomputed hcounted (by omega)

omit hx in
theorem tenLog_bounds :
    10 ^ x.logarithmDigits c ≤ x.tenLog c ∧ x.tenLog c ≤ 3 * 10 ^ x.logarithmDigits c := by
  obtain ⟨hw, -⟩ := logarithmDigits_bounds hrange c
  obtain ⟨hlow, hhigh⟩ := abs_le.mp (abs_tenLog_sub_le hdigits hrange hcomputed hcounted)
  obtain ⟨hlog2, hlog⟩ := log_ten_bounds
  have hS : (100 : ℝ) ≤ 10 ^ x.logarithmDigits c := by
    calc (100 : ℝ) = 10 ^ 2 := by norm_num
      _ ≤ 10 ^ x.logarithmDigits c := pow_le_pow_right₀ (by norm_num) (by omega)
  have hbounds : (10 : ℝ) ^ x.logarithmDigits c ≤ x.tenLog c ∧
      (x.tenLog c : ℝ) ≤ 3 * 10 ^ x.logarithmDigits c := by
    constructor <;> nlinarith
  exact ⟨by exact_mod_cast hbounds.1, by exact_mod_cast hbounds.2⟩

theorem lnUnits_le (h : x.adjusted < 0) :
    (x.lnUnits c : ℝ) ≤ Real.log x.value * 10 ^ x.logarithmDigits c + 10 * -x.adjusted := by
  have hsignificand := (significandLog_le hdigits hrange hx (c := c)).1
  obtain ⟨hlow, -⟩ := abs_le.mp (abs_tenLog_sub_le hdigits hrange hcomputed hcounted)
  have he : (x.adjusted : ℝ) ≤ 0 := by exact_mod_cast h.le
  rw [lnUnits, log_eq_log_significand_add hx]
  push_cast
  nlinarith

theorem lnUnits_neg (h : x.value ≤ 1 - 10 ^ (-(c.digits : ℤ) - 10)) : x.lnUnits c < 0 := by
  obtain ⟨hw, -⟩ := logarithmDigits_bounds hrange c
  have hone : x.value < 1 := h.trans_lt (sub_lt_self 1 (ten_zpow_pos _))
  have hadjusted : x.adjusted < 0 := not_le.mp fun hle =>
    absurd ((one_le_iff_adjusted_nonneg hx).mpr hle) (not_le.mpr hone)
  have hle := lnUnits_le hdigits hrange hx hcomputed hcounted hadjusted
  have hxr : (0 : ℝ) < x.value := by exact_mod_cast hx
  have hS : (10 : ℝ) ≤ 10 ^ x.logarithmDigits c := le_self_pow₀ (by norm_num) (by omega)
  suffices hneg : Real.log x.value * 10 ^ x.logarithmDigits c + 10 * -x.adjusted < 0 by
    exact_mod_cast hle.trans_lt hneg
  by_cases hlast : x.adjusted = -1
  · -- just below one, where the distance from one is ten units at least
    have hdigit : x.logarithmDigits c = c.digits + 11 := by
      rw [logarithmDigits, hlast]
      exact congrArg (c.digits + guardDigits + ·) length_one
    have hlog := Real.log_lt_sub_one_of_pos hxr (by exact_mod_cast hone.ne)
    have hdistance : (10 : ℝ) ^ (-(c.digits : ℤ) - 10) ≤ 1 - x.value := by
      have := (Rat.cast_le (K := ℝ)).mpr h
      push_cast at this
      linarith
    have hten : (10 : ℝ) ^ (-(c.digits : ℤ) - 10) * 10 ^ x.logarithmDigits c = 10 := by
      rw [hdigit, ← zpow_natCast, ← zpow_add₀ (by norm_num)]
      push_cast
      rw [show -(c.digits : ℤ) - 10 + (c.digits + 11) = 1 by ring, zpow_one]
    rw [hlast]
    push_cast
    nlinarith
  · -- further below one the logarithm has at least two for each place
    have hplaces : (x.adjusted : ℝ) ≤ -2 := by exact_mod_cast (by omega : x.adjusted ≤ -2)
    have hten := log_ten_bounds.1
    have hsignificand : Real.log x.significand.value ≤ Real.log 10 := by
      obtain ⟨hlow, hhigh⟩ := significand_bounds hx
      exact Real.log_le_log (by exact_mod_cast zero_lt_one.trans_le hlow) (by exact_mod_cast hhigh.le)
    have hlog : Real.log x.value < x.adjusted := by
      rw [log_eq_log_significand_add hx]
      nlinarith
    nlinarith

theorem lnUnits_nonpos (h : x.value < 1) (hshort : c.digits ≤ 50000000) : x.lnUnits c ≤ 0 := by
  obtain ⟨hw, hw'⟩ := logarithmDigits_bounds hrange c
  have hadjusted : x.adjusted < 0 := not_le.mp fun hle =>
    absurd ((one_le_iff_adjusted_nonneg hx).mpr hle) (not_le.mpr h)
  have hpos := (tenLog_bounds hdigits hrange hcomputed hcounted).1
  have hscale : (0 : ℤ) < 10 ^ x.logarithmDigits c := by positivity
  have hten : x.significandLog c ≤ x.tenLog c := by
    refine le_ln10Digits hcomputed (by omega) (by rw [tenLog] at hpos; omega) ?_
    exact (significandLog_le hdigits hrange hx).2
  rw [lnUnits]
  nlinarith

/-! ### The logarithms -/

theorem abs_lnUnits_le : |x.lnUnits c| ≤ 10 ^ 17 * 10 ^ x.logarithmDigits c := by
  obtain ⟨hlow, hhigh⟩ := (inRange_iff_adjusted x).mp hrange
  obtain ⟨hl0, hl⟩ := significandLog_bounds hdigits hrange hx (c := c)
  obtain ⟨ht0, ht⟩ := tenLog_bounds hdigits hrange hcomputed hcounted
  have hmax : maxAdjusted = 9000000000000000 := rfl
  have hS : (0 : ℤ) < 10 ^ x.logarithmDigits c := by positivity
  rw [lnUnits, abs_le]
  constructor <;> nlinarith

theorem abs_log10Units_le : |x.log10Units c| ≤ 10 ^ 17 * 10 ^ x.logarithmDigits c := by
  obtain ⟨hlow, hhigh⟩ := (inRange_iff_adjusted x).mp hrange
  obtain ⟨hl0, hl⟩ := significandLog_bounds hdigits hrange hx (c := c)
  obtain ⟨ht0, ht⟩ := tenLog_bounds hdigits hrange hcomputed hcounted
  have hmax : maxAdjusted = 9000000000000000 := rfl
  have hS : (0 : ℤ) < 10 ^ x.logarithmDigits c := by positivity
  have hnumerator : 0 ≤ x.significandLog c * 10 ^ x.logarithmDigits c := mul_nonneg hl0 hS.le
  have hquotient0 := Int.ediv_nonneg hnumerator (hS.le.trans ht0)
  have hquotient : x.significandLog c * 10 ^ x.logarithmDigits c / x.tenLog c ≤
      x.significandLog c :=
    Int.ediv_le_of_le_mul (hS.trans_le ht0) (mul_le_mul_of_nonneg_left ht0 hl0)
  rw [log10Units, Int.tdiv_eq_ediv_of_nonneg hnumerator, abs_le]
  constructor <;> nlinarith

theorem exists_ln_sign : ∃ l : Decimal, x.ln c = some l ∧
    SignType.sign l.value = SignType.sign (x.lnUnits c) := by
  obtain ⟨-, hw⟩ := logarithmDigits_bounds hrange c
  have hmax : maxAdjusted = 9000000000000000 := rfl
  have hword : UInt32.size = 4294967296 := rfl
  rw [ln, if_neg (not_le.mpr (value_pos_iff.mp hx))]
  split
  · next hone =>
    have hvalue : x.value = 1 := by rw [hone, value_one]
    have hunits := (lnUnits_of_one_le hdigits hrange hx
      ((by positivity : (0 : ℤ) < 10 ^ x.logarithmDigits c).trans_le
        (tenLog_bounds hdigits hrange hcomputed hcounted).1) hvalue.ge).1
      (by rw [hvalue]; linarith [ten_zpow_pos (-(c.digits : ℤ) - 11)])
    exact ⟨zero, rfl, by rw [hunits, value_zero, sign_zero, sign_zero]⟩
  · have hunits : x.lnUnits c = FixedPoint.ln (x.significand.toScaled (x.logarithmDigits c)).toNat
        (x.logarithmDigits c) +
        if x.adjusted = 0 then 0 else c.known.ln10Digits (x.logarithmDigits c) * x.adjusted := by
      rw [lnUnits, significandLog, tenLog]
      split
      · next hadjusted => rw [hadjusted, mul_zero]
      · rfl
    simp only [← hunits]
    exact exists_finish_sign (by omega) (abs_lnUnits_le hdigits hrange hx hcomputed hcounted)

theorem exists_log10_sign : ∃ m : Decimal, x.log10 c = some m ∧
    SignType.sign m.value = SignType.sign (x.log10Units c) := by
  obtain ⟨-, hw⟩ := logarithmDigits_bounds hrange c
  have hmax : maxAdjusted = 9000000000000000 := rfl
  have hword : UInt32.size = 4294967296 := rfl
  rw [log10, if_neg (not_le.mpr (value_pos_iff.mp hx))]
  split
  · next hone =>
    -- a power of ten, whose logarithm is its exponent
    have hS : (0 : ℤ) < 10 ^ x.logarithmDigits c := by positivity
    have hlost : x.significandLog c = 0 := by
      refine (significandLog_sign hdigits hrange hx).1 ?_
      rw [hone, value_one, one_mul]
      linarith
    have hunits : x.log10Units c = x.adjusted * 10 ^ x.logarithmDigits c := by
      rw [log10Units, hlost, zero_mul, Int.zero_tdiv, zero_add]
    obtain ⟨r, ho, hr⟩ := exists_finish_sign (c := c) (u := x.adjusted) (w := 0) (by decide) (by
      obtain ⟨hlow, hhigh⟩ := (inRange_iff_adjusted x).mp hrange
      exact abs_le.mpr ⟨by omega, by omega⟩)
    exact ⟨r, ho, by rw [hr, hunits, sign_mul, sign_pos hS, mul_one]⟩
  · have hunits : x.log10Units c = (FixedPoint.ln (x.significand.toScaled (x.logarithmDigits c)).toNat
        (x.logarithmDigits c) * (powerOfTen (x.logarithmDigits c) : ℤ)).tdiv
        (c.known.ln10Digits (x.logarithmDigits c)) +
        x.adjusted * (powerOfTen (x.logarithmDigits c) : ℤ) := by
      rw [log10Units, significandLog, tenLog, powerOfTen_eq _ (by omega), tens_eq_pow]
      push_cast
      rfl
    simp only [← hunits]
    exact exists_finish_sign (by omega) (abs_log10Units_le hdigits hrange hx hcomputed hcounted)

/-- The signs of the two logarithms of a number. From one on both are zero up to 63 units of the
first working digit, and positive from there on. Below one they are negative from ten such units on,
and never positive where the digits are few enough for the logarithm of ten to be known to the
unit. -/
theorem ln_log10_sign :
    ∃ l m : Decimal, x.ln c = some l ∧ x.log10 c = some m ∧
      (1 ≤ x.value →
        (x.value < 1 + 63 * 10 ^ (-(c.digits : ℤ) - 11) → l = zero ∧ m = zero) ∧
        (1 + 63 * 10 ^ (-(c.digits : ℤ) - 11) ≤ x.value → 0 < l.value ∧ 0 < m.value)) ∧
      (x.value < 1 →
        (x.value ≤ 1 - 10 ^ (-(c.digits : ℤ) - 10) → l.value < 0 ∧ m.value < 0) ∧
        (c.digits ≤ 50000000 → l.value ≤ 0 ∧ m.value ≤ 0)) := by
  obtain ⟨l, hl, hlsign⟩ := exists_ln_sign hdigits hrange hx hcomputed hcounted
  obtain ⟨m, hm, hmsign⟩ := exists_log10_sign hdigits hrange hx hcomputed hcounted
  refine ⟨l, m, hl, hm, ?_⟩
  have hS : (0 : ℤ) < 10 ^ x.logarithmDigits c := by positivity
  obtain ⟨ht0, ht⟩ := tenLog_bounds hdigits hrange hcomputed hcounted
  obtain ⟨habove, hneg, hnonpos⟩ := log10Units_sign (e := x.adjusted) hS
    (significandLog_eq_zero_or hdigits hrange hx) (hS.trans_le ht0) (by omega)
  rw [← lnUnits, ← log10Units] at habove hneg hnonpos
  have hzero : ∀ {y : Decimal}, SignType.sign y.value = 0 → y = zero := fun h =>
    value_injective ((sign_eq_zero_iff.mp h).trans value_zero.symm)
  constructor
  · intro h
    obtain ⟨hlost, hkept⟩ := lnUnits_of_one_le hdigits hrange hx (hS.trans_le ht0) h
    rw [habove ((one_le_iff_adjusted_nonneg hx).mp h), ← hlsign] at hmsign
    constructor
    · intro hlt
      rw [hlost hlt, sign_zero] at hlsign
      exact ⟨hzero hlsign, hzero (hmsign.trans hlsign)⟩
    · intro hle
      rw [sign_pos (hkept hle)] at hlsign
      exact ⟨sign_eq_one_iff.mp hlsign, sign_eq_one_iff.mp (hmsign.trans hlsign)⟩
  · intro h
    constructor
    · intro hle
      have hunits := lnUnits_neg hdigits hrange hx hcomputed hcounted hle
      rw [sign_neg hunits] at hlsign
      rw [sign_neg (hneg hunits)] at hmsign
      exact ⟨sign_eq_neg_one_iff.mp hlsign, sign_eq_neg_one_iff.mp hmsign⟩
    · intro hshort
      have hunits := lnUnits_nonpos hdigits hrange hx hcomputed hcounted h hshort
      exact ⟨sign_nonpos_iff.mp (hlsign ▸ sign_nonpos_iff.mpr hunits),
        sign_nonpos_iff.mp (hmsign ▸ sign_nonpos_iff.mpr (hnonpos hunits))⟩

end

end

theorem ln_log10_sign_lost :
    let c : Context := { digits := 28, positive := by decide }
    let x : Decimal := ⟨10 ^ 60 + 1, -60, .inr (by decide)⟩
    1 < x.value ∧ x.ln c = some zero ∧ x.log10 c = some zero := by
  intro c x
  have hvalue : x.value = 1 + 1 / 10 ^ 60 := by norm_num [x, value]
  have hcounted : Counted (afterRequests computeLn10 []) := counted_afterRequests _ (by simp)
  obtain ⟨l, m, hl, hm, hnear, -⟩ := ln_log10_sign (x := x) (c := c) (by decide) (by decide +kernel)
    (by rw [hvalue]; norm_num) (computed_afterRequests computeLn10 []) hcounted
  obtain ⟨rfl, rfl⟩ := (hnear (by rw [hvalue]; norm_num)).1 (by rw [hvalue]; norm_num [c])
  exact ⟨by rw [hvalue]; norm_num, hl, hm⟩

end Decimal

end DeskCalculator
