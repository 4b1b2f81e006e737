import DeskCalculator.FixedPoint.Circular
import DeskCalculator.Proofs.Approximation
import DeskCalculator.Proofs.Digits

/-!
# Sine and cosine of scaled integers

Within half a turn and a little more the terms of both series stay below seventeen times the
scale, and from the third on each is less than half the one before it. So an error of seventeen
units is carried from each term to the next, and there are about four terms for each digit.
-/

set_option autoImplicit false

namespace DeskCalculator.FixedPoint

open DeskCalculator.Natural

/-- The divisors of the sine series and of the cosine series are at least as large. -/
structure GrowsFast (divisor : ℕ → ℕ) : Prop where
  one : 2 ≤ divisor 1
  two : 12 ≤ divisor 2
  later : ∀ n, 30 ≤ divisor (n + 3)

theorem growsFast_sineDivisor : GrowsFast sineDivisor where
  one := by decide
  two := by decide
  later n := by
    unfold sineDivisor
    nlinarith

theorem growsFast_cosineDivisor : GrowsFast cosineDivisor where
  one := by decide
  two := by decide
  later n := by
    have h : 2 * (n + 3) - 1 = 2 * n + 5 := by omega
    rw [cosineDivisor, h]
    nlinarith

/-! ### Any such series -/

section

variable {ratio scale w t : ℕ} {divisor : ℕ → ℕ} {ρ l : ℝ} {a : ℕ → ℝ}
  (h : IsFactorialSeries ratio scale divisor ρ a) (hfast : GrowsFast divisor)
  (hρ : ρ ≤ (16 / 5) ^ 2) (hfirst : a 0 ≤ 16 / 5 * scale)

include h hfast hρ

theorem circular_step_le {q : ℝ} (n : ℕ) (hq : 1 / 2 ≤ q) : a (n + 3) ≤ q * a (n + 2) := by
  have hd : (30 : ℝ) ≤ divisor (n + 3) := by exact_mod_cast hfast.later n
  exact h.step_le (by nlinarith)

theorem circular_second_le : a 2 ≤ 64 / 75 * a 1 := by
  have hd : (12 : ℝ) ≤ divisor 2 := by exact_mod_cast hfast.two
  exact h.step_le (by linarith)

theorem circular_falls (k : ℕ) (hk : 1 ≤ k) : a (k + 1) ≤ a k := by
  match k, hk with
  | 1, _ => linarith [circular_second_le h hfast hρ, h.nonneg 1]
  | n + 2, _ => linarith [circular_step_le h hfast hρ n (le_refl (1 / 2)), h.nonneg (n + 2)]

include hfirst

theorem circular_first_le : a 1 ≤ 17 * scale := by
  have hd : (2 : ℝ) ≤ divisor 1 := by exact_mod_cast hfast.one
  have hs : (0 : ℝ) ≤ scale := Nat.cast_nonneg scale
  have hle : a 1 ≤ 128 / 25 * a 0 := h.step_le (by linarith)
  linarith

theorem circular_term_le (n : ℕ) : a n ≤ 56 * scale / 2 ^ n := by
  have hs : (0 : ℝ) ≤ scale := Nat.cast_nonneg scale
  have hd : (2 : ℝ) ≤ divisor 1 := by exact_mod_cast hfast.one
  have h1 : a 1 ≤ 128 / 25 * a 0 := h.step_le (by linarith)
  match n with
  | 0 =>
    rw [pow_zero, div_one]
    linarith
  | 1 => linarith
  | n + 2 =>
    induction n with
    | zero => linarith [circular_second_le h hfast hρ]
    | succ n ih =>
      have hstep := circular_step_le h hfast hρ n (le_refl (1 / 2))
      rw [pow_succ, ← div_div]
      linarith

theorem circular_term_le_scale (n : ℕ) : a n ≤ 17 * scale := by
  have hs : (0 : ℝ) ≤ scale := Nat.cast_nonneg scale
  match n with
  | 0 => linarith
  | 1 => exact circular_first_le h hfast hρ hfirst
  | n + 2 =>
    have hpow : (4 : ℝ) ≤ 2 ^ (n + 2) := by
      have hone : (1 : ℝ) ≤ 2 ^ n := one_le_pow₀ one_le_two
      rw [pow_add]
      linarith
    refine (circular_term_le h hfast hρ hfirst (n + 2)).trans ?_
    rw [div_le_iff₀ (by positivity)]
    nlinarith

theorem circular_term_lt_one (hscale : scale ≤ 10 ^ w) {k : ℕ} (hk : 4 * w + 6 ≤ k) : a k < 1 := by
  refine (circular_term_le h hfast hρ hfirst k).trans_lt ?_
  rw [div_lt_one (by positivity)]
  have hlt : 56 * scale < 2 ^ k := by
    calc 56 * scale < 64 * 16 ^ w := by
          have hle := hscale.trans (Nat.pow_le_pow_left (by decide : 10 ≤ 16) w)
          have hpos : 0 < 16 ^ w := Nat.pow_pos (by decide)
          omega
      _ = 2 ^ (4 * w + 6) := by
          rw [pow_add, pow_mul]
          ring
      _ ≤ 2 ^ k := Nat.pow_le_pow_right (by decide) hk
  exact_mod_cast hlt

/-- The first term is exact and no other is off by more than seventeen. -/
theorem circular_follows (ht : a 0 = t) :
    Follows a (fun n => if n = 0 then 0 else 17) 1
      (factorialTerms ratio scale divisor h.grows 1 t) := by
  refine h.follows (circular_term_le_scale h hfast hρ hfirst) (fun n => ?_) ht.ge (by simp [ht])
  have hd := h.divisor_pos n
  rw [if_neg n.succ_ne_zero, ← le_sub_iff_add_le', div_le_iff₀ hd]
  match n with
  | 0 =>
    have hone : (2 : ℝ) ≤ divisor 1 := by exact_mod_cast hfast.one
    rw [if_pos rfl]
    linarith
  | 1 =>
    have htwo : (12 : ℝ) ≤ divisor 2 := by exact_mod_cast hfast.two
    rw [if_neg one_ne_zero]
    linarith
  | n + 2 =>
    have hlater : (30 : ℝ) ≤ divisor (n + 3) := by exact_mod_cast hfast.later n
    rw [if_neg (by omega)]
    linarith

theorem abs_circular_sub_le (hscale : scale ≤ 10 ^ w) (ht : a 0 = t)
    (hsum : HasSum (fun k => (-1) ^ k * a k) l) :
    |(alternating (t :: factorialTerms ratio scale divisor h.grows 1 t) : ℝ) - l| ≤
      17 * (4 * w + 6) := by
  have hfollows := circular_follows h hfast hρ hfirst ht
  have hlength := hfollows.length_le (by omega : 1 ≤ 4 * w + 6) fun k hk =>
    circular_term_lt_one h hfast hρ hfirst hscale hk
  have hε : ∀ k : ℕ, (if k = 0 then (0 : ℝ) else 17) ≤ 17 := fun k => by split <;> norm_num
  have hoff := hfollows.abs_alternating_sub_le hε hsum (circular_falls h hfast hρ)
  have hcount : ((factorialTerms ratio scale divisor h.grows 1 t).length : ℝ) + 1 ≤ 4 * w + 6 := by
    exact_mod_cast (by omega)
  have hl : l = a 0 - remainder a l 1 := by rw [← remainder_eq_sub, remainder_zero]
  calc |(alternating (t :: factorialTerms ratio scale divisor h.grows 1 t) : ℝ) - l|
      = |(alternating (factorialTerms ratio scale divisor h.grows 1 t) : ℝ) - remainder a l 1| := by
        conv_lhs => rw [hl, ht, alternating]
        rw [abs_sub_comm]
        push_cast
        ring_nf
    _ ≤ _ := hoff
    _ ≤ 17 * (4 * w + 6) := by linarith

end

/-! ### The two series -/

theorem isFactorialSeries_scaledSquare {x : ℤ} {scale : ℕ} (hscale : 0 < scale) {divisor : ℕ → ℕ}
    {a : ℕ → ℝ} (grows : ∀ n, n ≤ divisor n) (first : 0 ≤ a 0)
    (step : ∀ n, a (n + 1) = a n * (x / scale) ^ 2 / divisor (n + 1)) :
    IsFactorialSeries (scaledSquare x scale) scale divisor ((x / scale) ^ 2) a := by
  have hs : (0 : ℝ) < scale := by exact_mod_cast hscale
  have hsquare : (x / scale : ℝ) ^ 2 * scale = ((x.natAbs * x.natAbs : ℕ) : ℝ) / scale := by
    have habs : ((x.natAbs * x.natAbs : ℕ) : ℝ) = x ^ 2 := by
      rw [Nat.cast_mul, Nat.cast_natAbs, ← pow_two, Int.cast_abs, sq_abs]
    rw [habs]
    field_simp
  refine ⟨first, step, ?_, ?_, hscale, grows⟩
  · rw [hsquare]
    exact Nat.cast_div_le
  · rw [hsquare, div_le_iff₀ hs, mul_comm _ (scale : ℝ)]
    unfold scaledSquare
    exact_mod_cast (Nat.lt_mul_div_succ (x.natAbs * x.natAbs) hscale).le

theorem square_le_of_abs_le {x : ℤ} {scale : ℕ} (hscale : 0 < scale)
    (hx : |(x : ℝ)| ≤ 16 / 5 * scale) : (x / scale : ℝ) ^ 2 ≤ (16 / 5) ^ 2 := by
  have hs : (0 : ℝ) < scale := by exact_mod_cast hscale
  rw [← sq_abs, abs_div, abs_of_pos hs]
  exact pow_le_pow_left₀ (by positivity) ((div_le_iff₀ hs).mpr hx) 2

noncomputable def cosineTerm (scale : ℕ) (r : ℝ) (n : ℕ) : ℝ :=
  scale * (r ^ (2 * n) / (2 * n).factorial)

noncomputable def sineTerm (scale : ℕ) (r : ℝ) (n : ℕ) : ℝ :=
  scale * (r ^ (2 * n + 1) / (2 * n + 1).factorial)

theorem cosineTerm_zero (scale : ℕ) (r : ℝ) : cosineTerm scale r 0 = scale := by simp [cosineTerm]

theorem sineTerm_zero (scale : ℕ) (r : ℝ) : sineTerm scale r 0 = scale * r := by simp [sineTerm]

theorem cosineTerm_succ (scale : ℕ) (r : ℝ) (n : ℕ) :
    cosineTerm scale r (n + 1) = cosineTerm scale r n * r ^ 2 / cosineDivisor (n + 1) := by
  have hdivisor : cosineDivisor (n + 1) = (2 * n + 1) * (2 * n + 2) := rfl
  unfold cosineTerm
  rw [hdivisor, show 2 * (n + 1) = 2 * n + 1 + 1 by ring, Nat.factorial_succ, Nat.factorial_succ]
  push_cast
  field_simp
  ring

theorem sineTerm_succ (scale : ℕ) (r : ℝ) (n : ℕ) :
    sineTerm scale r (n + 1) = sineTerm scale r n * r ^ 2 / sineDivisor (n + 1) := by
  have hdivisor : sineDivisor (n + 1) = (2 * n + 2) * (2 * n + 3) := rfl
  unfold sineTerm
  rw [hdivisor, show 2 * (n + 1) + 1 = 2 * n + 1 + 1 + 1 by ring, Nat.factorial_succ,
    Nat.factorial_succ]
  push_cast
  field_simp
  ring

theorem hasSum_cosineTerm (scale : ℕ) (r : ℝ) :
    HasSum (fun k => (-1) ^ k * cosineTerm scale r k) (scale * Real.cos r) := by
  have hterm : ∀ k, (-1) ^ k * cosineTerm scale r k =
      scale * ((-1) ^ k * r ^ (2 * k) / ((2 * k).factorial : ℝ)) := fun k => by
    unfold cosineTerm
    ring
  simp only [hterm]
  exact (Real.hasSum_cos r).mul_left (scale : ℝ)

theorem hasSum_sineTerm (scale : ℕ) (r : ℝ) :
    HasSum (fun k => (-1) ^ k * sineTerm scale r k) (scale * Real.sin r) := by
  have hterm : ∀ k, (-1) ^ k * sineTerm scale r k =
      scale * ((-1) ^ k * r ^ (2 * k + 1) / ((2 * k + 1).factorial : ℝ)) := fun k => by
    unfold sineTerm
    ring
  simp only [hterm]
  exact (Real.hasSum_sin r).mul_left (scale : ℝ)

/-! ### Their sums -/

section

variable {x : ℤ} {w : ℕ} (hx : |(x : ℝ)| ≤ 16 / 5 * powerOfTen w)

include hx

theorem abs_cos_sub_le :
    |(cos x w : ℝ) - powerOfTen w * Real.cos (x / powerOfTen w)| ≤ 17 * (4 * w + 6) := by
  have hscale := powerOfTen_pos w
  have hle : powerOfTen w ≤ 10 ^ w := tens_le_tens (Nat.mod_le _ _)
  unfold cos
  generalize powerOfTen w = scale at *
  have hs : (0 : ℝ) < scale := by exact_mod_cast hscale
  have hseries : IsFactorialSeries (scaledSquare x scale) scale cosineDivisor ((x / scale) ^ 2)
      (cosineTerm scale (x / scale)) :=
    isFactorialSeries_scaledSquare hscale le_cosineDivisor
      (hs.le.trans_eq (cosineTerm_zero scale _).symm) (cosineTerm_succ scale _)
  refine abs_circular_sub_le hseries growsFast_cosineDivisor (square_le_of_abs_le hscale hx) ?_ hle
    (cosineTerm_zero scale _) (hasSum_cosineTerm scale _)
  rw [cosineTerm_zero]
  linarith

theorem abs_sin_sub_le :
    |(sin x w : ℝ) - powerOfTen w * Real.sin (x / powerOfTen w)| ≤ 17 * (4 * w + 6) := by
  have hscale := powerOfTen_pos w
  have hle : powerOfTen w ≤ 10 ^ w := tens_le_tens (Nat.mod_le _ _)
  unfold sin
  generalize powerOfTen w = scale at *
  have hs : (0 : ℝ) < scale := by exact_mod_cast hscale
  have habs : (x.natAbs : ℝ) = |(x : ℝ)| := by rw [Nat.cast_natAbs, Int.cast_abs]
  have hzero : sineTerm scale (x.natAbs / scale) 0 = x.natAbs := by
    rw [sineTerm_zero]
    field_simp
  have hsquare : ((x.natAbs : ℤ) / scale : ℝ) ^ 2 = (x / scale) ^ 2 := by
    rw [Int.cast_natCast, habs, div_pow, sq_abs, div_pow]
  have hseries : IsFactorialSeries (scaledSquare x scale) scale sineDivisor ((x / scale) ^ 2)
      (sineTerm scale (x.natAbs / scale)) := by
    refine isFactorialSeries_scaledSquare hscale le_sineDivisor
      ((Nat.cast_nonneg _).trans_eq hzero.symm) fun n => ?_
    rw [sineTerm_succ, ← hsquare, Int.cast_natCast]
  have hoff := abs_circular_sub_le hseries growsFast_sineDivisor (square_le_of_abs_le hscale hx)
    (by rw [hzero, habs]; exact hx) hle hzero (hasSum_sineTerm scale _)
  -- the sum is that of the magnitude, and the sine is odd
  unfold withSign
  split
  · next hneg =>
    have hnegr : (x : ℝ) < 0 := by exact_mod_cast hneg
    have hodd : scale * Real.sin (x / scale) = -(scale * Real.sin (x.natAbs / scale)) := by
      rw [habs, abs_of_neg hnegr, neg_div, Real.sin_neg]
      ring
    rw [hodd, Int.cast_neg, ← neg_sub', abs_neg]
    exact hoff
  · next hpos =>
    have hposr : (0 : ℝ) ≤ x := by exact_mod_cast not_lt.mp hpos
    have heven : (x / scale : ℝ) = x.natAbs / scale := by rw [habs, abs_of_nonneg hposr]
    rw [heven]
    exact hoff

end

end DeskCalculator.FixedPoint
