import DeskCalculator.Proofs.ExponentialAccuracy
import DeskCalculator.Proofs.LogarithmAccuracy
import DeskCalculator.Proofs.PowerRange
import DeskCalculator.Proofs.Symmetry

/-!
# Powers by way of the logarithm

An exponent of more than 64 bits goes through the exponential of its product with the logarithm. The
product is near enough for the exponential to follow the rule of the range, if the base does not lie
so near one that its logarithm is lost. But the product itself is held to the range: where it lies
below, far below where the exponential becomes zero, the power is refused.
-/

set_option autoImplicit false

namespace DeskCalculator.Decimal

open DeskCalculator.Natural DeskCalculator.FixedPoint

variable {x y t : Decimal} {c : Context} {o : Option Decimal} {τ q : ℝ}

/-! ### The rule of the range -/

/-- What the range asks of the outcome for a number `q` that is not negative: it is refused above the
range only, and zero below, where near the ends of the range a factor of two does not count. -/
structure KeepsRange (q : ℝ) (o : Option Decimal) : Prop where
  above : o = none → 10 ^ maxAdjusted ≤ q
  below : 2 * q < 10 ^ (-maxAdjusted) → o = some zero

theorem ten_zpow_neg_maxAdjusted_le : (10 : ℝ) ^ (-maxAdjusted) ≤ 1 :=
  zpow_le_one_of_nonpos₀ (by norm_num) (by decide)

theorem ten_zpow_maxAdjusted_le_exp (h : 9 * 10 ^ 16 ≤ τ) :
    (10 : ℝ) ^ maxAdjusted ≤ Real.exp τ := by
  have hmax : (maxAdjusted : ℝ) = 9000000000000000 := by exact_mod_cast rfl
  have hten : (10 : ℝ) ^ maxAdjusted = Real.exp (maxAdjusted * Real.log 10) := by
    rw [← Real.log_zpow, Real.exp_log (zpow_pos (by norm_num) _)]
  rw [hten, Real.exp_le_exp, hmax]
  linarith [log_ten_bounds.2]

theorem Rounds.keepsRange {p : ℚ} (h : Rounds c p o) (hp : |(p : ℝ)| ≤ 4 / 3 * q) :
    KeepsRange q o where
  above := by
    rintro rfl
    have hle := (Rat.cast_le (K := ℝ)).mpr h.le_of_eq_none
    push_cast at hle
    have hpos : (0 : ℝ) < 10 ^ maxAdjusted := zpow_pos (by norm_num) _
    linarith
  below hq := by
    refine h.eq_zero_of_lt ((Rat.cast_lt (K := ℝ)).mp ?_)
    push_cast
    linarith

theorem keepsRange_one (v : Decimal) : KeepsRange 1 (some v) where
  above h := absurd h (Option.some_ne_none v)
  below h := by linarith [ten_zpow_neg_maxAdjusted_le]

theorem KeepsRange.map (h : KeepsRange q o) {f : Decimal → Decimal} (hf : f zero = zero) :
    KeepsRange q (o.map f) where
  above hnone := h.above (Option.map_eq_none_iff.mp hnone)
  below hq := by rw [h.below hq, Option.map_some, hf]

theorem keepsRange_none_or_le (h : 9 * 10 ^ maxAdjusted ≤ |τ|) :
    KeepsRange (Real.exp τ) none ∨ τ ≤ -(9 * 10 ^ maxAdjusted) := by
  have hpos : (0 : ℝ) < 10 ^ maxAdjusted := zpow_pos (by norm_num) _
  rcases le_total 0 τ with hτ | hτ
  · rw [abs_of_nonneg hτ] at h
    have hexp := Real.add_one_le_exp τ
    exact .inl ⟨fun _ => by linarith, fun h => by linarith [ten_zpow_neg_maxAdjusted_le]⟩
  · rw [abs_of_nonpos hτ] at h
    exact .inr (by linarith)

theorem kernel_part_le {w : ℕ} (hw : 10 ≤ w) : 8192 * (w + 9) / (10 : ℝ) ^ w ≤ 1 / 100 := by
  obtain ⟨m, rfl⟩ := Nat.exists_eq_add_of_le hw
  have hm : (m : ℝ) ≤ 10 ^ m := by exact_mod_cast (Nat.lt_pow_self (by decide)).le
  have hone : (1 : ℝ) ≤ 10 ^ m := one_le_pow₀ (by norm_num)
  rw [div_le_div_iff₀ (by positivity) (by norm_num), pow_add]
  push_cast
  linarith

theorem exp_keepsRange_of_le (ht : t.value ≠ 0) (hadjusted : 17 ≤ t.adjusted)
    (hpart : |(t.value : ℝ) - τ| ≤ |τ| / 20) : KeepsRange (Real.exp τ) (t.exp c) := by
  have hlarge := (Rat.cast_le (K := ℝ)).mpr ((ten_zpow_le.mpr hadjusted).trans (le_abs_value ht))
  norm_num at hlarge
  rw [exp, if_neg (fun h => ht (isZero_iff.mp h)), if_pos hadjusted]
  by_cases hneg : t.isNegative = true
  · rw [if_pos hneg]
    exact ⟨fun h => absurd h (Option.some_ne_none _), fun _ => rfl⟩
  · have ht0 : (0 : ℝ) ≤ t.value := by
      exact_mod_cast not_lt.mp fun h => hneg (isNegative_iff.mpr h)
    have hτ : 9 * 10 ^ 16 ≤ τ := by
      rw [abs_of_nonneg ht0] at hlarge
      obtain ⟨h1, h2⟩ := abs_le.mp hpart
      rcases abs_cases τ with ⟨h, -⟩ | ⟨h, hlt⟩ <;> rw [h] at h2 <;> linarith
    have hhigh := ten_zpow_maxAdjusted_le_exp hτ
    have hten : (1 : ℝ) ≤ 10 ^ maxAdjusted := one_le_zpow₀ (by norm_num) (by decide)
    rw [if_neg hneg]
    exact ⟨fun _ => hhigh, fun h => by linarith [ten_zpow_neg_maxAdjusted_le]⟩

section

variable (hcomputed : Computed computeLn10 c.known.ln10) (hcounted : Counted c.known.ln10)

include hcomputed hcounted

theorem exp_keepsRange_of_lt (hdigits : c.digits + 50 < UInt32.size) (ht : t.value ≠ 0)
    (hadjusted : t.adjusted < 17) (hnear : |(t.value : ℝ) - τ| ≤ 1 / 16) :
    KeepsRange (Real.exp τ) (t.exp c) := by
  have hguard : guardDigits = 10 := rfl
  have hextra : extraDigits = 10 := rfl
  have hwhole := integerDigits_le_of_adjusted_lt (n := 17) hadjusted
  obtain ⟨k, rest, heq, h0, hrest, hA⟩ := exists_remainder hcomputed
    (ln10Digits_ne_zero hcomputed hcounted (by omega) (by omega)) hdigits ht hadjusted
  have hkernel := abs_scaled_kernel_sub_le (by omega) (by omega) h0 hrest hA
  have hsmall := kernel_part_le (w := c.digits + guardDigits) (by omega)
  rw [heq]
  refine (rounds_finish _ _).keepsRange ?_
  -- the error of the argument as a factor
  have hsplit : Real.exp t.value = Real.exp τ * Real.exp (t.value - τ) := by
    rw [← Real.exp_add, add_sub_cancel]
  have hoff := abs_le.mp (Real.abs_exp_sub_one_le (hnear.trans (by norm_num)))
  have hfactor : Real.exp t.value ≤ Real.exp τ * (9 / 8) := by
    rw [hsplit]
    exact mul_le_mul_of_nonneg_left (by linarith) (Real.exp_pos τ).le
  have herror := hkernel.trans (mul_le_mul_of_nonneg_right hsmall (Real.exp_pos _).le)
  have htriangle := (abs_sub_abs_le_abs_sub _ _).trans herror
  rw [abs_of_pos (Real.exp_pos (t.value : ℝ))] at htriangle
  linarith [Real.exp_pos τ]

theorem exp_keepsRange (hdigits : c.digits + 50 < UInt32.size)
    (hpart : |(t.value : ℝ) - τ| ≤ |τ| / 20)
    (hnear : t.adjusted < 17 → |(t.value : ℝ) - τ| ≤ 1 / 16) :
    KeepsRange (Real.exp τ) (t.exp c) := by
  by_cases ht : t.value = 0
  · have hτ : τ = 0 := by
      rw [ht, Rat.cast_zero, zero_sub, abs_neg] at hpart
      exact abs_eq_zero.mp (by linarith [abs_nonneg τ])
    rw [exp, if_pos (isZero_iff.mpr ht), hτ, Real.exp_zero]
    exact keepsRange_one one
  · rcases lt_or_ge t.adjusted 17 with hadjusted | hadjusted
    · exact exp_keepsRange_of_lt hcomputed hcounted hdigits ht hadjusted (hnear hadjusted)
    · exact exp_keepsRange_of_le ht hadjusted hpart

end

/-! ### The argument of the exponential -/

def logTimes (x y : Decimal) (c : Context) : Option Decimal := (x.ln c).bind fun l => y.mul l c

theorem powerOfPositive_eq (x y : Decimal) (c : Context) :
    x.powerOfPositive y c = (x.logTimes y (c.widen (guardDigits + 5))).bind fun rough =>
      if 17 ≤ rough.adjusted then rough.exp c
      else (if 0 < rough.integerDigits then
          x.logTimes y (c.widen (guardDigits + 5 + rough.integerDigits))
        else some rough).bind fun t => (t.exp (c.widen guardDigits)).map (·.round c.digits) := by
  unfold powerOfPositive logTimes
  simp only [Option.bind_eq_bind, Option.bind_assoc, Option.pure_def]
  congr 1
  funext l
  congr 1
  funext rough
  split_ifs <;> simp [Option.map_eq_bind, Option.bind_assoc]

theorem fourth_place_le {e : ℤ} (he : 4 ≤ e) : (10 : ℝ) ^ (-e) ≤ 1 / 10000 := by
  rw [show (1 : ℝ) / 10000 = 10 ^ (-4 : ℤ) by norm_num]
  exact zpow_le_zpow_right₀ (by norm_num) (by omega)

section

variable {Y L l u : ℝ} (hu : 0 ≤ u) (hu1 : u ≤ 1 / 10000) (hlog : 50 * u ≤ |L|)

include hu1 hlog

theorem error_le_part (Y : ℝ) : u * (2 * |Y| + 12 * |Y * L|) ≤ |Y * L| / 20 := by
  have hY := mul_le_mul_of_nonneg_left hlog (abs_nonneg Y)
  have hsmall := mul_le_mul_of_nonneg_right hu1 (abs_nonneg (Y * L))
  rw [← abs_mul] at hY
  linarith [abs_nonneg (Y * L)]

include hu

theorem abs_product_sub_le (hl : |l - L| ≤ u * (2 + 6 * |L|)) :
    |Y * l - Y * L| ≤ u * (2 * |Y| + 6 * |Y * L|) ∧ |Y * l| ≤ 21 / 20 * |Y * L| := by
  have hoff : |Y * l - Y * L| ≤ u * (2 * |Y| + 6 * |Y * L|) := by
    rw [← mul_sub, abs_mul, abs_mul]
    linarith [mul_le_mul_of_nonneg_left hl (abs_nonneg Y)]
  have hpart := error_le_part hu1 hlog Y
  have hrest := mul_nonneg hu (abs_nonneg (Y * L))
  refine ⟨hoff, ?_⟩
  linarith [abs_sub_abs_le_abs_sub (Y * l) (Y * L), abs_nonneg (Y * L)]

end

theorem le_of_overflow {p : ℚ} (hmin : 2 ≤ c.digits)
    (h : 10 ^ (maxAdjusted + 1) * (1 - c.roundoff) ≤ |p|) : 19 / 2 * 10 ^ maxAdjusted ≤ |p| := by
  have hten := ten_zpow_eq_ten_mul (maxAdjusted + 1)
  rw [add_sub_cancel_right] at hten
  have hpow : (10 : ℚ) ^ (1 - (c.digits : ℤ)) ≤ 10 ^ (-1 : ℤ) := ten_zpow_le.mpr (by omega)
  norm_num at hpow
  rw [Context.roundoff, hten] at h
  nlinarith [ten_zpow_pos maxAdjusted]

section

variable (hcomputed : Computed computeLn10 c.known.ln10) (hcounted : Counted c.known.ln10)
  (hmin : 16 ≤ c.digits) (hdigits : c.digits + 40 < UInt32.size) (hrange : x.InRange)
  (hx : 0 < x.value) (hlog : 50 * 10 ^ (-(c.digits : ℤ)) ≤ |Real.log x.value|)
  (hy : 1 ≤ |y.value|)

include hcomputed hcounted hmin hdigits hrange hx hlog hy

theorem logTimes_cases :
    x.logTimes y c = none ∧ 9 * 10 ^ maxAdjusted ≤ |y.value * Real.log x.value| ∨
    ∃ t : Decimal, x.logTimes y c = some t ∧ t.InRange ∧
      |(t.value : ℝ) - y.value * Real.log x.value| ≤
        10 ^ (-(c.digits : ℤ)) * (2 * |(y.value : ℝ)| + 12 * |y.value * Real.log x.value|) := by
  obtain ⟨l, hl, hnear⟩ := exists_ln_eq_some hcomputed hcounted hdigits hrange hx hlog
  have hword : UInt32.size = 4294967296 := rfl
  have hmax : maxAdjusted = 9000000000000000 := rfl
  have hu : (0 : ℝ) < 10 ^ (-(c.digits : ℤ)) := zpow_pos (by norm_num) _
  have hu1 := fourth_place_le (e := c.digits) (by omega)
  have hyr : (1 : ℝ) ≤ |(y.value : ℝ)| := by exact_mod_cast hy
  obtain ⟨hproduct, hsize⟩ := abs_product_sub_le (Y := y.value) hu.le hu1 hlog hnear
  have hlow : (10 : ℝ) ^ (-maxAdjusted) ≤ |(y.value * l.value : ℝ)| := by
    have hpow : (10 : ℝ) ^ (-maxAdjusted) ≤ 10 ^ (-(c.digits : ℤ)) :=
      zpow_le_zpow_right₀ (by norm_num) (by omega)
    have hL := mul_le_mul hyr hlog (by positivity) (abs_nonneg _)
    rw [one_mul, ← abs_mul] at hL
    have hpart := error_le_part hu1 hlog (y.value : ℝ)
    have hrest := mul_nonneg hu.le (abs_nonneg (y.value * Real.log x.value))
    have htriangle := abs_sub_abs_le_abs_sub (y.value * Real.log x.value) (y.value * l.value)
    rw [abs_sub_comm] at htriangle
    linarith
  have hq : 10 ^ (-maxAdjusted) ≤ |y.value * l.value| := by
    rw [← ten_zpow_le_abs_cast_iff]
    exact_mod_cast hlow
  have hrounds : Rounds c (y.value * l.value) (x.logTimes y c) := by
    rw [logTimes, hl]
    exact rounds_mul y l
  rcases hrounds.cases (IsRounding.ne_zero_of_le hq) with
    ⟨hnone, habove⟩ | ⟨-, hzero⟩ | ⟨t, ht, htr, hr⟩
  · refine .inl ⟨hnone, ?_⟩
    have hless := (Rat.cast_le (K := ℝ)).mpr (le_of_overflow (by omega) habove)
    have hpos : (0 : ℝ) < 10 ^ maxAdjusted := zpow_pos (by norm_num) _
    push_cast at hless
    linarith
  · exact absurd hzero (not_lt.mpr hq)
  · refine .inr ⟨t, ht, htr, ?_⟩
    have hround := hr.abs_cast_sub_le_mul
    rw [div_eq_mul_inv, ← zpow_natCast, ← zpow_neg] at hround
    push_cast at hround
    have hpart := mul_le_mul_of_nonneg_right hsize hu.le
    have hrest := mul_nonneg hu.le (abs_nonneg (y.value * Real.log x.value))
    linarith [abs_sub_le (t.value : ℝ) (y.value * l.value) (y.value * Real.log x.value)]

end

/-! ### Powers of positive numbers -/

theorem last_place_div (c : Context) (n : ℕ) :
    (10 : ℝ) ^ (-((c.widen (guardDigits + 5 + n)).digits : ℤ)) =
      10 ^ (-(c.digits + 15 : ℤ)) / tens n := by
  rw [digits_widen, cast_tens, ← zpow_natCast, ← zpow_sub₀ (by norm_num)]
  congr 1
  push_cast [guardDigits]
  ring

section

variable (hcomputed : Computed computeLn10 c.known.ln10) (hcounted : Counted c.known.ln10)
  (hdigits : c.digits + 100 < UInt32.size) (hrange : x.InRange) (hx : 0 < x.value)
  (hlog : 50 * 10 ^ (-(c.digits + 15 : ℤ)) ≤ |Real.log x.value|) (hy : 1 ≤ |y.value|)

include hcomputed hcounted hdigits hrange hx hlog hy

theorem refined_cases {rough : Decimal} (hadjusted : rough.adjusted < 17)
    (hrough : |(rough.value : ℝ) - y.value * Real.log x.value| ≤
      |y.value * Real.log x.value| / 20) {o : Option Decimal}
    (ho : o = if 0 < rough.integerDigits then
        x.logTimes y (c.widen (guardDigits + 5 + rough.integerDigits)) else some rough) :
    o = none ∧ 9 * 10 ^ maxAdjusted ≤ |y.value * Real.log x.value| ∨
    ∃ t : Decimal, o = some t ∧
      |(t.value : ℝ) - y.value * Real.log x.value| ≤ |y.value * Real.log x.value| / 20 ∧
      |(t.value : ℝ) - y.value * Real.log x.value| ≤ 1 / 16 := by
  have hvalue : |(rough.value : ℝ)| < tens rough.integerDigits := by
    exact_mod_cast abs_value_lt_tens rough
  have hless : |y.value * Real.log x.value| ≤ 20 / 19 * tens rough.integerDigits := by
    have h := abs_sub_abs_le_abs_sub (y.value * Real.log x.value) rough.value
    rw [abs_sub_comm] at h
    linarith
  by_cases hwhole : 0 < rough.integerDigits
  · rw [if_pos hwhole] at ho
    have hten : (10 : ℝ) ≤ tens rough.integerDigits := by
      rw [cast_tens]
      exact le_self_pow₀ (by norm_num) hwhole.ne'
    have hlast := last_place_div c rough.integerDigits
    have hu := fourth_place_le (e := c.digits + 15) (by omega)
    have hpos : (0 : ℝ) < 10 ^ (-(c.digits + 15 : ℤ)) := zpow_pos (by norm_num) _
    have hfiner : 10 ^ (-(c.digits + 15 : ℤ)) / (tens rough.integerDigits : ℝ) ≤
        10 ^ (-(c.digits + 15 : ℤ)) := div_le_self hpos.le (by linarith)
    have hguard : guardDigits = 10 := rfl
    have hplaces := integerDigits_le_of_adjusted_lt (n := 17) hadjusted
    rcases logTimes_cases (c := c.widen (guardDigits + 5 + rough.integerDigits)) hcomputed hcounted
      (by rw [digits_widen]; omega) (by rw [digits_widen]; omega) hrange hx
      (by rw [hlast]; linarith) hy with hnone | ⟨t, ht, -, hnear⟩
    · exact .inl (ho ▸ hnone)
    · have hpart := error_le_part hu hlog (y.value : ℝ)
      have hT : (0 : ℝ) < tens rough.integerDigits := by linarith
      rw [hlast, div_mul_eq_mul_div, le_div_iff₀ hT] at hnear
      generalize (tens rough.integerDigits : ℝ) = T at *
      refine .inr ⟨t, ho ▸ ht, ?_, ?_⟩
      · nlinarith [abs_nonneg ((t.value : ℝ) - y.value * Real.log x.value)]
      · refine le_of_mul_le_mul_right ?_ hT
        linarith
  · rw [if_neg hwhole] at ho
    rw [Nat.eq_zero_of_not_pos hwhole, tens_zero, Nat.cast_one] at hless
    exact .inr ⟨rough, ho, hrough, by linarith⟩

/-- A power keeps the range, or is refused because the argument of the exponential lies below the
range, and it is refused wherever that does. -/
theorem powerOfPositive_range :
    (KeepsRange (Real.exp (y.value * Real.log x.value)) (x.powerOfPositive y c) ∨
      x.powerOfPositive y c = none ∧ y.value * Real.log x.value ≤ -(9 * 10 ^ maxAdjusted)) ∧
    (y.value * Real.log x.value ≤ -(11 * 10 ^ maxAdjusted) →
      x.powerOfPositive y c = none) := by
  have hguard : guardDigits = 10 := rfl
  have hdigit := c.positive
  have hlast := last_place_div c 0
  rw [Nat.add_zero, tens_zero, Nat.cast_one, div_one] at hlast
  rw [powerOfPositive_eq]
  rcases logTimes_cases (c := c.widen (guardDigits + 5)) hcomputed hcounted
    (by rw [digits_widen]; omega) (by rw [digits_widen]; omega) hrange hx (by rwa [hlast]) hy with
    ⟨hnone, hlarge⟩ | ⟨rough, hrough, hin, hnear⟩
  · rw [hnone, Option.bind_none]
    exact ⟨(keepsRange_none_or_le hlarge).imp_right fun h => ⟨rfl, h⟩, fun _ => rfl⟩
  rw [hrough, Option.bind_some]
  have hpart := hnear.trans (hlast ▸ error_le_part (fourth_place_le (by omega)) hlog _)
  constructor
  · by_cases hadjusted : 17 ≤ rough.adjusted
    · rw [if_pos hadjusted]
      exact .inl (exp_keepsRange hcomputed hcounted (by omega) hpart
        fun h => absurd hadjusted (not_le.mpr h))
    · rw [if_neg hadjusted]
      rcases refined_cases hcomputed hcounted hdigits hrange hx hlog hy (not_le.mp hadjusted) hpart
        rfl with ⟨hnone, hlarge⟩ | ⟨t, ht, htpart, htnear⟩
      · rw [hnone, Option.bind_none]
        exact (keepsRange_none_or_le hlarge).imp_right fun h => ⟨rfl, h⟩
      · rw [ht, Option.bind_some]
        refine .inl (KeepsRange.map ?_ (round_zero c))
        exact exp_keepsRange (c := c.widen guardDigits) hcomputed hcounted
          (by rw [digits_widen]; omega) htpart fun _ => htnear
  · intro hbelow
    -- an argument in the range is not as large as that
    have hless := (Rat.cast_lt (K := ℝ)).mpr hin.abs_lt
    push_cast at hless
    have htriangle := abs_sub_abs_le_abs_sub (y.value * Real.log x.value) rough.value
    rw [abs_sub_comm] at htriangle
    have habs := neg_le_abs (y.value * Real.log x.value)
    have hpos : (0 : ℝ) < 10 ^ maxAdjusted := zpow_pos (by norm_num) _
    rw [zpow_add₀ (by norm_num), zpow_one] at hless
    linarith

end

theorem powerOfPositive_one (y : Decimal) (c : Context) :
    one.powerOfPositive y c = some (one.round c.digits) := by
  have hzero : ∀ c : Context, one.logTimes y c = some zero := by
    intro c
    have hln : one.ln c = some zero := by
      rw [ln, if_neg (by decide), if_pos rfl]
    have hrounds := rounds_mul (c := c) y zero
    rw [value_zero, mul_zero] at hrounds
    rw [logTimes, hln, Option.bind_some]
    refine hrounds.eq_zero_of_lt ?_
    rw [abs_zero, mul_zero]
    exact mul_pos two_pos (ten_zpow_pos _)
  have hadjusted : zero.adjusted = 0 := by decide +kernel
  have hwhole : zero.integerDigits = 1 := by decide +kernel
  rw [powerOfPositive_eq, hzero, Option.bind_some, hadjusted, hwhole, if_neg (by decide),
    if_pos one_pos, hzero, Option.bind_some, exp, if_pos (by decide), Option.map_some]

theorem half_le_abs_log {a δ : ℝ} (ha : 0 < a) (hδ : δ ≤ 1) (h : δ ≤ |a - 1|) :
    δ / 2 ≤ |Real.log a| := by
  rcases le_total 1 a with hone | hone
  · have hlow := Real.one_sub_inv_le_log_of_pos ha
    rw [abs_of_nonneg (by linarith)] at h
    rw [abs_of_nonneg (Real.log_nonneg hone)]
    refine le_trans ?_ hlow
    rcases le_total a 2 with htwo | htwo
    · rw [← one_div, one_sub_div ha.ne', div_le_div_iff₀ two_pos ha]
      nlinarith
    · have hinv := inv_anti₀ two_pos htwo
      linarith
  · have hhigh := Real.log_le_sub_one_of_pos ha
    rw [abs_of_nonpos (by linarith)] at h
    rw [abs_of_nonpos (by linarith)]
    linarith

/-! ### Integer powers -/

/-- What a power needs that is taken by way of the logarithm: digits that are counted, and a base
that does not lie so near one that its logarithm is lost. -/
structure ServesLogarithm (c : Context) (x : Decimal) : Prop where
  digits : c.digits + 100 < UInt32.size
  computed : Computed computeLn10 c.known.ln10
  counted : Counted c.known.ln10
  apart : |x.value| = 1 ∨ 10 ^ (-(c.digits : ℤ) - 13) ≤ |(|x.value| - 1)|

variable {n : ℤ}

theorem value_abs_pos (hx : x.value ≠ 0) : 0 < x.abs.value := by
  rw [value_abs]
  exact abs_pos.mpr hx

theorem ServesLogarithm.le_abs_log (h : ServesLogarithm c x) (hx : x.value ≠ 0)
    (hone : |x.value| ≠ 1) : 50 * 10 ^ (-(c.digits + 15 : ℤ)) ≤ |Real.log x.abs.value| := by
  have hapart : (10 : ℝ) ^ (-(c.digits : ℤ) - 13) ≤ |(x.abs.value : ℝ) - 1| := by
    have hreal := (Rat.cast_le (K := ℝ)).mpr (h.apart.resolve_left hone)
    rw [value_abs]
    push_cast at hreal ⊢
    exact hreal
  have hplace : (50 : ℝ) * 10 ^ (-(c.digits + 15 : ℤ)) = 10 ^ (-(c.digits : ℤ) - 13) / 2 := by
    rw [show -(c.digits : ℤ) - 13 = -(c.digits + 15 : ℤ) + 2 by ring, zpow_add₀ (by norm_num)]
    norm_num
    ring
  have hlast : (10 : ℝ) ^ (-(c.digits : ℤ) - 13) ≤ 1 :=
    zpow_le_one_of_nonpos₀ (by norm_num) (by omega)
  have hbase : (0 : ℝ) < x.abs.value := by exact_mod_cast value_abs_pos hx
  rw [hplace]
  exact half_le_abs_log hbase hlast hapart

theorem ne_zero_of_not_fitsWord (hword : ¬FitsWord n) : n ≠ 0 := by
  rintro rfl
  exact hword (by decide)

theorem pow_eq_map_powerOfPositive (hx : x.value ≠ 0) (hy : y.value = n) (hword : ¬FitsWord n)
    (c : Context) :
    ∃ even : Bool, x.pow y c = (x.abs.powerOfPositive y c).map (withParity even) := by
  have hy0 : y.value ≠ 0 := by
    rw [hy]
    exact_mod_cast ne_zero_of_not_fitsWord hword
  have hnone : y.toWord? = none := by
    refine Option.eq_none_iff_forall_ne_some.mpr fun m hm => ?_
    obtain ⟨hvalue, hfits⟩ := toWord?_eq_some_iff.mp hm
    rw [hy, Int.cast_inj] at hvalue
    exact hword (hvalue ▸ hfits)
  rw [pow, if_neg (fun h => hy0 (isZero_iff.mp h)), if_neg (fun h => hx (isZero_iff.mp h)), hnone]
  simp only
  by_cases hneg : x.isNegative = true
  · rw [if_pos hneg, if_pos (isInteger_iff.mpr ⟨n, hy⟩)]
    exact ⟨y.isEven, rfl⟩
  · rw [if_neg hneg, abs_of_not_isNegative hneg]
    exact ⟨true, by rw [withParity_true, Option.map_id, id]⟩

theorem large_pow_range (hserves : ServesLogarithm c x) (hrange : x.InRange) (hx : x.value ≠ 0)
    (hy : y.value = n) (hword : ¬FitsWord n) :
    (KeepsRange |(x.value ^ n : ℚ)| (x.pow y c) ∨
      x.pow y c = none ∧ Real.log |(x.value ^ n : ℚ)| ≤ -(9 * 10 ^ maxAdjusted)) ∧
    (Real.log |(x.value ^ n : ℚ)| ≤ -(11 * 10 ^ maxAdjusted) → x.pow y c = none) := by
  have habs : 0 < |(x.value : ℝ)| := by exact_mod_cast abs_pos.mpr hx
  have hpow : |((x.value ^ n : ℚ) : ℝ)| = |(x.value : ℝ)| ^ n := by
    rw [Rat.cast_zpow, abs_zpow]
  have hlog : Real.log |((x.value ^ n : ℚ) : ℝ)| = y.value * Real.log x.abs.value := by
    rw [hpow, Real.log_zpow, hy, value_abs, Rat.cast_abs, Rat.cast_intCast]
  have hexp : |((x.value ^ n : ℚ) : ℝ)| = Real.exp (y.value * Real.log x.abs.value) := by
    rw [← hlog, Real.exp_log (hpow ▸ zpow_pos habs n)]
  obtain ⟨even, hmap⟩ := pow_eq_map_powerOfPositive hx hy hword c
  rw [hlog, hexp, hmap, Option.map_eq_none_iff]
  by_cases hone : |x.value| = 1
  · have hbase : x.abs = one := value_injective (by rw [value_abs, hone, value_one])
    have hten : (0 : ℝ) < 10 ^ maxAdjusted := zpow_pos (by norm_num) _
    rw [hbase, powerOfPositive_one, value_one, Rat.cast_one, Real.log_one, mul_zero, Real.exp_zero]
    exact ⟨.inl ((keepsRange_one _).map (withParity_zero even)), fun h => by linarith⟩
  · have hy1 : 1 ≤ |y.value| := by
      rw [hy]
      exact_mod_cast Int.one_le_abs (ne_zero_of_not_fitsWord hword)
    obtain ⟨hkeeps, hrefused⟩ := powerOfPositive_range hserves.computed hserves.counted
      hserves.digits (inRange_abs hrange) (value_abs_pos hx) (hserves.le_abs_log hx hone) hy1
    exact ⟨hkeeps.imp_left fun h => h.map (withParity_zero even), hrefused⟩

/-- Where the power `q` is refused although it lies below the range: a negative one with an exponent
of 64 bits that lies below by a digit, and one with a longer exponent whose logarithm lies below. -/
inductive LostBelow (c : Context) (n : ℤ) (q : ℚ) : Prop
  | inverse (word : FitsWord n) (negative : n < 0)
      (low : |q| * (1 - powerSlack c n.natAbs) ≤ 10 ^ (-(maxAdjusted + 1))) : LostBelow c n q
  | argument (long : ¬FitsWord n) (low : Real.log |(q : ℝ)| ≤ -(9 * 10 ^ maxAdjusted)) :
      LostBelow c n q

/-- Integer powers and the range: a power is refused only where it lies above the range, up to the
errors of the squares, and zero below, except that some powers below are refused as well. With an
exponent of 64 bits that is so for negative powers, which are inverses of natural powers that lie
above the range; with a longer one for powers whose logarithm lies below the range itself. -/
theorem pow_range (hc : c.digits < UInt32.size) (hrange : x.InRange) (hx : x.value ≠ 0)
    (hy : y.value = n) (hserves : FitsWord n ∨ ServesLogarithm c x) :
    (x.pow y c = none → 10 ^ maxAdjusted ≤ |x.value ^ n| ∨ LostBelow c n (x.value ^ n) ∨
      FitsWord n ∧ n < 0 ∧ 10 ^ maxAdjusted * (1 - powerSlack c n.natAbs) ≤ |x.value ^ n|) ∧
    (2 * |x.value ^ n| < 10 ^ (-maxAdjusted) →
      x.pow y c = some zero ∨ x.pow y c = none ∧ LostBelow c n (x.value ^ n)) ∧
    (FitsWord n → n < 0 →
      |x.value ^ n| < 10 ^ (-(maxAdjusted + 1)) * (1 - powerSlack c n.natAbs) →
      x.pow y c = none) ∧
    (¬FitsWord n → Real.log |(x.value ^ n : ℚ)| ≤ -(11 * 10 ^ maxAdjusted) →
      x.pow y c = none) := by
  by_cases hword : FitsWord n
  · obtain ⟨habove, hbelow, hrefused⟩ := pow_range_of_fitsWord hx hy hword hc
    refine ⟨fun h => ?_, fun h => ?_, fun _ => hrefused, fun h => absurd hword h⟩
    · rcases habove h with h | h | ⟨hneg, h⟩
      · exact .inl h
      · exact .inr (.inr ⟨hword, h⟩)
      · exact .inr (.inl (.inverse hword hneg h))
    · exact (hbelow h).imp_right fun ⟨hnone, hneg, h⟩ => ⟨hnone, .inverse hword hneg h⟩
  · obtain ⟨hkeeps, hrefused⟩ :=
      large_pow_range (hserves.resolve_left hword) hrange hx hy hword
    refine ⟨fun h => ?_, fun h => ?_, fun h => absurd h hword, fun _ => hrefused⟩
    · rcases hkeeps with hkeeps | ⟨-, hlost⟩
      · have hr := hkeeps.above h
        refine .inl ((Rat.cast_le (K := ℝ)).mp ?_)
        push_cast at hr ⊢
        exact hr
      · exact .inr (.inl (.argument hword hlost))
    · refine hkeeps.imp (fun hkeeps => hkeeps.below ?_) fun ⟨hnone, h⟩ => ⟨hnone, .argument hword h⟩
      have hr := (Rat.cast_lt (K := ℝ)).mpr h
      push_cast at hr ⊢
      exact hr

/-- The inverse of the square of `10 ^ 5000000000000000`, which lies below the range. -/
theorem pow_range_refused :
    let c := Context.ofDigits 28
    let x : Decimal := ⟨1, 5000000000000000, .inr (by decide)⟩
    let y : Decimal := ⟨-2, 0, .inr (by decide)⟩
    x.pow y c = none ∧ 2 * |x.value ^ (-2 : ℤ)| < 10 ^ (-maxAdjusted) := by
  intro c x y
  have hx : x.value = 10 ^ (5000000000000000 : ℤ) := by simp [x, value]
  have hy : y.value = (-2 : ℤ) := by simp [y, value]
  have hx0 : x.value ≠ 0 := hx ▸ (ten_zpow_pos _).ne'
  have hpow : |x.value ^ (-2 : ℤ)| = 10 ^ (-10000000000000000 : ℤ) := by
    rw [hx, ← zpow_mul, abs_of_pos (ten_zpow_pos _)]
    norm_num only
  have hslack : powerSlack c (-2 : ℤ).natAbs = 0 := if_pos (by decide)
  have hlow : |x.value ^ (-2 : ℤ)| < 10 ^ (-(maxAdjusted + 1)) := by
    rw [hpow]
    exact ten_zpow_lt.mpr (by decide)
  constructor
  · obtain ⟨-, -, hrefused, -⟩ :=
      pow_range (c := c) (by decide) (by decide +kernel) hx0 hy (.inl (by decide))
    rw [hslack, sub_zero, mul_one] at hrefused
    exact hrefused (by decide) (by decide) hlow
  · have hdigit := ten_zpow_eq_ten_mul (-maxAdjusted)
    rw [sub_eq_add_neg, ← neg_add] at hdigit
    linarith only [hlow, hdigit, abs_nonneg (x.value ^ (-2 : ℤ))]

end DeskCalculator.Decimal
