import DeskCalculator.Proofs.AngleUnit
import DeskCalculator.Proofs.Outcome

/-!
# Sine and cosine of one angle

Called by name, both functions convert the angle, compute with five digits more and round again. Each
is off by six units behind the last digit at most, so the sum of their squares is one up to a few
more. This needs that both take the angle for the same number of radians, which they do even if more
digits of the circle constant have become known between the two calls.
-/

set_option autoImplicit false

namespace DeskCalculator

open DeskCalculator.Natural DeskCalculator.FixedPoint DeskCalculator.Decimal

variable {c c' : Context} {f : NamedFunction} {x v : Decimal} {unit : AngleUnit}
  {others others' : List Decimal}

theorem Context.Sound.widen (hc : c.Sound) (h : c.digits ≤ 1999999995) :
    (c.widen NamedFunction.guardDigits).Sound where
  computed := hc.computed
  counted := hc.counted
  digits_le := by
    rw [digits_widen, NamedFunction.guardDigits]
    omega

namespace NamedFunction

/-- The function that is called by name, the one that it computes in radians, and the one that this
approximates. -/
inductive Approximates : NamedFunction → (Decimal → Context → Option Decimal) → (ℝ → ℝ) → Prop
  | sin : Approximates sin Decimal.sin Real.sin
  | cos : Approximates cos Decimal.cos Real.cos

namespace Approximates

variable {g : Decimal → Context → Option Decimal} {F : ℝ → ℝ}

theorem isCircular (h : Approximates f g F) : ∃ K, IsCircular K F := by
  cases h with
  | sin => exact ⟨_, isCircular_sin⟩
  | cos => exact ⟨_, isCircular_cos⟩

theorem compute_eq (h : Approximates f g F) (x : Decimal) (others : List Decimal) (unit : AngleUnit)
    (c : Context) : f.compute x others unit c = orOutOfRange ((x.toRadians unit c).bind (g · c)) := by
  cases h <;> rfl

theorem exists_value (h : Approximates f g F) (hc : c.Sound)
    (hx : x.integerDigits ≤ maxAngleDigits) :
    ∃ v : Decimal, g x c = some v ∧ |(v.value : ℝ) - F x.value| ≤ 35 / 10 ^ c.digits := by
  cases h with
  | sin => exact exists_sin hc hx
  | cos => exact exists_cos hc hx

theorem abs_round_sub_le (h : Approximates f g F) {r : ℝ}
    (hv : |(v.value : ℝ) - F r| ≤ 35 / 10 ^ (c.digits + 5)) :
    |((v.round c.digits).value : ℝ) - F r| ≤ 6 / 10 ^ c.digits := by
  obtain ⟨K, hK⟩ := h.isCircular
  have hE : (10 : ℝ) ≤ 10 ^ c.digits := le_self_pow₀ (by norm_num) c.positive.ne'
  have hv' : |(v.value : ℝ) - F r| ≤ 1 / 10 ^ c.digits := by
    refine hv.trans ?_
    rw [pow_add, div_le_div_iff₀ (by positivity) (by positivity)]
    linarith
  have hlt : |v.value| < 10 := by
    have hunit : (1 : ℝ) / 10 ^ c.digits ≤ 1 := div_le_one_of_le₀ (by linarith) (by linarith)
    have hreal : |(v.value : ℝ)| < 10 := by
      linarith [abs_sub_abs_le_abs_sub (v.value : ℝ) (F r), hK.bounded r]
    exact_mod_cast hreal
  calc |((v.round c.digits).value : ℝ) - F r|
      ≤ |((v.round c.digits).value : ℝ) - v.value| + |(v.value : ℝ) - F r| := abs_sub_le _ _ _
    _ ≤ 5 / 10 ^ c.digits + 1 / 10 ^ c.digits :=
      add_le_add ((round_isRounding v c.positive).abs_cast_sub_le hlt) hv'
    _ = 6 / 10 ^ c.digits := by ring

theorem exists_apply (h : Approximates f g F) (hc : c.Sound) (hdigits : c.digits ≤ 1999999995)
    {a : Decimal} (ha : x.toRadians unit (c.widen guardDigits) = some a)
    (hsize : a.integerDigits ≤ maxAngleDigits) (others : List Decimal) :
    ∃ v : Decimal, f.apply x others unit c = .ok v ∧
      |(v.value : ℝ) - F a.value| ≤ 6 / 10 ^ c.digits := by
  obtain ⟨v, hv, hoff⟩ := h.exists_value (hc.widen hdigits) hsize
  rw [digits_widen] at hoff
  refine ⟨v.round c.digits, ?_, h.abs_round_sub_le hoff⟩
  rw [apply, h.compute_eq, ha, Option.bind_some, hv]
  rfl

theorem exists_apply_of_unit (h : Approximates f g F) (hc : c.Sound) (hdigits : c.digits ≤ 1999999995)
    {halfTurn : Decimal} (hunit : unit.halfTurn? = some halfTurn) {n : ℕ} (hn0 : 0 < n)
    (hn : n ≤ maxAngleDigits) (hx : |(x.value : ℝ)| < 10 ^ n) (others : List Decimal) :
    ∃ v : Decimal, f.apply x others unit c = .ok v ∧
      |(v.value : ℝ) - F (x.value * Real.pi / halfTurn.value)| ≤
        (|(x.value : ℝ)| / 3 + 2) / 10 ^ (c.digits + 5) + 6 / 10 ^ c.digits := by
  obtain ⟨K, hK⟩ := h.isCircular
  obtain ⟨a, ha, hsize, hoff⟩ := exists_toRadians (hc.widen hdigits) hunit hn0 hn hx
  obtain ⟨v, hv, hvoff⟩ := h.exists_apply hc hdigits ha hsize others
  rw [digits_widen] at hoff
  refine ⟨v, hv, ?_⟩
  have hF := (hK.lipschitz a.value (x.value * Real.pi / halfTurn.value)).trans hoff
  rw [guardDigits] at hF
  linarith [abs_sub_le (v.value : ℝ) (F a.value) (F (x.value * Real.pi / halfTurn.value))]

theorem of_apply (h : Approximates f g F) (hc : c.Sound) (hdigits : c.digits ≤ 1999999995)
    (hv : f.apply x others unit c = .ok v) : ∃ a : Decimal,
      x.toRadians unit (c.widen guardDigits) = some a ∧
      |(v.value : ℝ) - F a.value| ≤ 6 / 10 ^ c.digits := by
  obtain ⟨s, hs, -⟩ := map_eq_ok.mp hv
  rw [h.compute_eq, orOutOfRange_eq_ok, Option.bind_eq_some_iff] at hs
  obtain ⟨a, ha, hs⟩ := hs
  have hsize : a.integerDigits ≤ maxAngleDigits := by
    cases h with
    | sin => exact integerDigits_le_of_sin hs
    | cos => exact integerDigits_le_of_cos hs
  obtain ⟨v', hv', hoff⟩ := h.exists_apply hc hdigits ha hsize others
  obtain rfl : v' = v := Except.ok.inj (hv'.symm.trans hv)
  exact ⟨a, ha, hoff⟩

end Approximates

end NamedFunction

/-! ### The sum of the squares -/

theorem abs_sq_sub_sq_le {y z η : ℝ} (h : |y - z| ≤ η) (hz : |z| ≤ 1) :
    |y ^ 2 - z ^ 2| ≤ η * (2 + η) := by
  have hsum : |y + z| ≤ 2 + η := by
    calc |y + z| = |y - z + 2 * z| := by ring_nf
      _ ≤ |y - z| + |2 * z| := abs_add_le _ _
      _ ≤ 2 + η := by
        rw [abs_mul, abs_of_pos (by norm_num : (0 : ℝ) < 2)]
        linarith
  rw [sq_sub_sq, abs_mul, mul_comm]
  exact mul_le_mul h hsum (abs_nonneg _) ((abs_nonneg _).trans h)

/-- Whatever digits of the circle constant are known for the one and for the other, the squares of
sine and cosine add up to one, to the last digit but two. -/
theorem abs_sin_sq_add_cos_sq_sub_one_le {s v : Decimal} (hc : c.Sound) (hc' : c'.Sound)
    (hdigits : c'.digits = c.digits) (hlow : 28 ≤ c.digits) (hhigh : c.digits ≤ 1000)
    (hs : NamedFunction.sin.apply x others unit c = .ok s)
    (hv : NamedFunction.cos.apply x others' unit c' = .ok v) :
    |s.value ^ 2 + v.value ^ 2 - 1| ≤ 10 ^ (2 - (c.digits : ℤ)) := by
  have hguard : NamedFunction.guardDigits = 5 := rfl
  obtain ⟨a, ha, hsa⟩ := NamedFunction.Approximates.sin.of_apply hc (by omega) hs
  obtain ⟨a', ha', hva⟩ := NamedFunction.Approximates.cos.of_apply hc' (by omega) hv
  have hwide : (c'.widen NamedFunction.guardDigits).digits =
      (c.widen NamedFunction.guardDigits).digits := by
    rw [digits_widen, digits_widen, hdigits]
  have hpi : pi (c'.widen NamedFunction.guardDigits) = pi (c.widen NamedFunction.guardDigits) :=
    pi_congr (hc.widen (by omega)) (hc'.widen (by omega)) hwide (by rw [digits_widen]; omega)
      (by rw [digits_widen]; omega)
  obtain rfl : a' = a := by
    rw [toRadians_congr hwide hpi, ha, Option.some_inj] at ha'
    exact ha'.symm
  rw [hdigits] at hva
  have hE : (10 : ℝ) ^ 28 ≤ 10 ^ c.digits := pow_le_pow_right₀ (by norm_num) hlow
  have hη : (6 : ℝ) / 10 ^ c.digits ≤ 1 := div_le_one_of_le₀ (by linarith) (by linarith)
  have hsin := abs_sq_sub_sq_le hsa (Real.abs_sin_le_one a'.value)
  have hcos := abs_sq_sub_sq_le hva (Real.abs_cos_le_one a'.value)
  have hη0 : (0 : ℝ) ≤ 6 / 10 ^ c.digits := by positivity
  have hreal : |(s.value : ℝ) ^ 2 + v.value ^ 2 - 1| ≤ 100 / 10 ^ c.digits := by
    calc |(s.value : ℝ) ^ 2 + v.value ^ 2 - 1|
        = |(s.value : ℝ) ^ 2 - Real.sin a'.value ^ 2 +
            (v.value ^ 2 - Real.cos a'.value ^ 2)| := by
          congr 1
          linear_combination Real.sin_sq_add_cos_sq (a'.value : ℝ)
      _ ≤ _ := abs_add_le _ _
      _ ≤ 6 / 10 ^ c.digits * 3 + 6 / 10 ^ c.digits * 3 := by
        have hmul := mul_le_mul_of_nonneg_left (by linarith : 2 + 6 / 10 ^ c.digits ≤ (3 : ℝ)) hη0
        linarith
      _ ≤ 100 / 10 ^ c.digits := by
        rw [div_mul_eq_mul_div, ← add_div]
        exact div_le_div_of_nonneg_right (by norm_num) (by positivity)
  rw [sub_eq_add_neg 2 (c.digits : ℤ), ten_zpow_add, zpow_neg, zpow_natCast, ← div_eq_mul_inv,
    ← Rat.cast_le (K := ℝ)]
  push_cast
  exact hreal.trans_eq (by norm_num)

theorem sin_sq_add_cos_sq_thirty_degrees :
    let c : Context := { digits := 28, positive := by decide }
    let c' : Context := { c with known := { pi := afterRequests computePi [43, 80] } }
    c.Sound ∧ c'.Sound ∧ ∃ s v : Decimal, NamedFunction.sin.apply (ofInt 30) [] .degree c = .ok s ∧
      NamedFunction.cos.apply (ofInt 30) [] .degree c' = .ok v ∧
      |s.value ^ 2 + v.value ^ 2 - 1| ≤ 10 ^ (2 - (c.digits : ℤ)) := by
  intro c c'
  have hc : c.Sound := Context.sound_afterRequests (by decide) (by decide) [] (by simp)
  have hc' : c'.Sound := Context.sound_afterRequests (by decide) (by decide) [43, 80] (by decide)
  have hx : |((ofInt 30).value : ℝ)| < 10 ^ 2 := by
    rw [value_ofInt]
    norm_num
  obtain ⟨s, hs, -⟩ := NamedFunction.Approximates.sin.exists_apply_of_unit hc (by decide)
    (rfl : AngleUnit.degree.halfTurn? = _) two_pos (by decide) hx []
  obtain ⟨v, hv, -⟩ := NamedFunction.Approximates.cos.exists_apply_of_unit hc' (by decide)
    (rfl : AngleUnit.degree.halfTurn? = _) two_pos (by decide) hx []
  exact ⟨hc, hc', s, v, hs, hv,
    abs_sin_sq_add_cos_sq_sub_one_le hc hc' rfl (by decide) (by decide) hs hv⟩

end DeskCalculator
