import DeskCalculator.Proofs.LogarithmOfTen
import DeskCalculator.Proofs.Root
import DeskCalculator.Proofs.SeriesSteps

/-!
# The logarithm of scaled integers

Every root is cut down, and so are the argument of the series and each of its terms, so the
logarithm of a number that is not below one is never overestimated. A root halves the logarithm, and
what was missing of it; the series is off by two units for each of its terms, of which there is one
for two digits.
-/

set_option autoImplicit false

namespace DeskCalculator.FixedPoint

open DeskCalculator.Natural

/-! ### Series in odd powers -/

/-- The exact powers of such a series, whose powers are truncated: `ratio` is what remains of
`r * scale` without its fraction. -/
structure IsOddSeries (ratio scale : ℕ) (r : ℝ) (b : ℕ → ℝ) : Prop where
  first : 0 ≤ b 0
  bounded : b 0 ≤ scale
  step : ∀ n, b (n + 1) = b n * r
  low : ratio ≤ r * scale
  high : r * scale ≤ ratio + 1
  small : r ≤ 1 / 4
  scale_pos : 0 < scale

namespace IsOddSeries

variable {ratio scale : ℕ} {r : ℝ} {b : ℕ → ℝ} {n p : ℕ}

theorem ratio_nonneg (h : IsOddSeries ratio scale r b) : 0 ≤ r := by
  have hs : (0 : ℝ) < scale := by exact_mod_cast h.scale_pos
  exact nonneg_of_mul_nonneg_left ((Nat.cast_nonneg ratio).trans h.low) hs

theorem nonneg (h : IsOddSeries ratio scale r b) (n : ℕ) : 0 ≤ b n := by
  induction n with
  | zero => exact h.first
  | succ n ih =>
    rw [h.step]
    exact mul_nonneg ih h.ratio_nonneg

theorem step_le (h : IsOddSeries ratio scale r b) (n : ℕ) : 4 * b (n + 1) ≤ b n := by
  rw [h.step]
  nlinarith [h.nonneg n, h.small]

theorem le_scale (h : IsOddSeries ratio scale r b) (n : ℕ) : b n ≤ scale := by
  induction n with
  | zero => exact h.bounded
  | succ n ih => linarith [h.step_le n, h.nonneg (n + 1)]

theorem truncated_step (h : IsOddSeries ratio scale r b) (hlow : p ≤ b n) (hhigh : b n ≤ p + 3) :
    ((p * ratio / scale : ℕ) : ℝ) ≤ b (n + 1) ∧ b (n + 1) ≤ (p * ratio / scale : ℕ) + 3 := by
  have hs : (0 : ℝ) < scale := by exact_mod_cast h.scale_pos
  have hr := h.ratio_nonneg
  have hp : (0 : ℝ) ≤ p := Nat.cast_nonneg p
  have hle : ((p * ratio / scale : ℕ) : ℝ) * scale ≤ p * ratio := by
    exact_mod_cast Nat.div_mul_le_self _ _
  have hlt : (p : ℝ) * ratio ≤ scale * ((p * ratio / scale : ℕ) + 1) := by
    exact_mod_cast (Nat.lt_mul_div_succ (p * ratio) h.scale_pos).le
  generalize ((p * ratio / scale : ℕ) : ℝ) = q at hle hlt ⊢
  rw [h.step]
  constructor
  · refine le_of_mul_le_mul_right ?_ hs
    calc q * scale ≤ p * ratio := hle
      _ ≤ b n * (r * scale) := mul_le_mul hlow h.low (Nat.cast_nonneg _) (h.nonneg n)
      _ = b n * r * scale := by ring
  · refine le_of_mul_le_mul_right ?_ hs
    have hoff : (b n - p) * (r * scale) ≤ 3 * (1 / 4 * scale) :=
      mul_le_mul (by linarith) (mul_le_mul_of_nonneg_right h.small hs.le)
        (mul_nonneg hr hs.le) (by norm_num)
    have hterm : p * (r * scale) ≤ p * (ratio + 1) := mul_le_mul_of_nonneg_left h.high hp
    have hbound : (p : ℝ) ≤ scale := hlow.trans (h.le_scale n)
    calc b n * r * scale = (b n - p) * (r * scale) + p * (r * scale) := by ring
      _ ≤ 3 * (1 / 4 * scale) + (scale * (q + 1) + scale) := by linarith
      _ ≤ (q + 3) * scale := by linarith

theorem truncated_term {q : ℕ} (hlow : q ≤ b (n + 1)) (hhigh : b (n + 1) ≤ q + 3) :
    ((q / (2 * (n + 1) + 1) : ℕ) : ℝ) ≤ b (n + 1) / (2 * (n + 1 : ℕ) + 1) ∧
      b (n + 1) / (2 * (n + 1 : ℕ) + 1) ≤ (q / (2 * (n + 1) + 1) : ℕ) + 2 := by
  have hd : (3 : ℝ) ≤ 2 * (n + 1 : ℕ) + 1 := by
    push_cast
    linarith [Nat.cast_nonneg (α := ℝ) n]
  have hle : ((q / (2 * (n + 1) + 1) : ℕ) : ℝ) * (2 * (n + 1 : ℕ) + 1) ≤ q := by
    exact_mod_cast Nat.div_mul_le_self _ _
  have hlt : (q : ℝ) + 1 ≤ (2 * (n + 1 : ℕ) + 1) * ((q / (2 * (n + 1) + 1) : ℕ) + 1) := by
    exact_mod_cast Nat.lt_mul_div_succ q (by omega)
  generalize ((q / (2 * (n + 1) + 1) : ℕ) : ℝ) = t at hle hlt ⊢
  generalize (2 * ((n + 1 : ℕ) : ℝ) + 1) = d at hd hle hlt ⊢
  constructor
  · rw [le_div_iff₀ (by linarith)]
    linarith
  · rw [div_le_iff₀ (by linarith)]
    linarith

theorem follows (h : IsOddSeries ratio scale r b) (small : ratio ≤ scale) (hlow : p ≤ b n)
    (hhigh : b n ≤ p + 3) :
    Follows (fun k => b k / (2 * k + 1)) (fun _ => 2) (n + 1)
      (oddTerms ratio scale small (n + 1) p) := by
  suffices hmain : ∀ m p : ℕ, (∃ n, m = n + 1 ∧ (p : ℝ) ≤ b n ∧ b n ≤ p + 3) →
      Follows (fun k => b k / (2 * k + 1)) (fun _ => 2) m (oddTerms ratio scale small m p) from
    hmain _ _ ⟨n, rfl, hlow, hhigh⟩
  intro m p
  induction m, p using oddTerms.induct ratio scale small with
  | case1 m p q t last =>
    rintro ⟨n, rfl, hlow, hhigh⟩
    obtain ⟨hqlow, hqhigh⟩ := h.truncated_step hlow hhigh
    have hterm := truncated_term hqlow hqhigh
    rw [show p * ratio / scale / (2 * (n + 1) + 1) = 0 from last, Nat.cast_zero, zero_add] at hterm
    rw [oddTerms, dif_pos last]
    exact .ends hterm.1 hterm.2
  | case2 m p q t last ih =>
    rintro ⟨n, rfl, hlow, hhigh⟩
    obtain ⟨hqlow, hqhigh⟩ := h.truncated_step hlow hhigh
    have hterm := truncated_term hqlow hqhigh
    rw [oddTerms, dif_neg last]
    exact .term (Nat.pos_of_ne_zero last) hterm.1 hterm.2 (ih ⟨n + 1, rfl, hqlow, hqhigh⟩)

end IsOddSeries

/-! ### The inverse hyperbolic tangent -/

section

variable {z scale w : ℕ} (hpos : 0 < scale) (hz : 10 * z ≤ scale)

noncomputable def oddPower (z scale k : ℕ) : ℝ := scale * (z / scale) ^ (2 * k + 1)

include hpos hz

theorem argument_le : (z / scale : ℝ) ≤ 1 / 10 := by
  rw [div_le_div_iff₀ (by exact_mod_cast hpos) (by norm_num)]
  exact_mod_cast (by omega : z * 10 ≤ 1 * scale)

theorem isOddSeries_oddPower :
    IsOddSeries (z * z / scale) scale ((z / scale : ℝ) ^ 2) (oddPower z scale) where
  first := by
    unfold oddPower
    positivity
  bounded := by
    have harg := argument_le hpos hz
    unfold oddPower
    rw [Nat.mul_zero, Nat.zero_add, pow_one]
    exact mul_le_of_le_one_right (Nat.cast_nonneg _) (by linarith)
  step n := by
    unfold oddPower
    ring
  low := by
    have hs : (0 : ℝ) < scale := by exact_mod_cast hpos
    rw [div_pow, sq, sq, ← div_div, div_mul_cancel₀ _ hs.ne', le_div_iff₀ hs]
    exact_mod_cast Nat.div_mul_le_self _ _
  high := by
    have hs : (0 : ℝ) < scale := by exact_mod_cast hpos
    rw [div_pow, sq, sq, ← div_div, div_mul_cancel₀ _ hs.ne', div_le_iff₀ hs]
    rw [mul_comm _ (scale : ℝ)]
    exact_mod_cast (Nat.lt_mul_div_succ (z * z) hpos).le
  small := by
    have harg := argument_le hpos hz
    have h0 : (0 : ℝ) ≤ z / scale := by positivity
    nlinarith
  scale_pos := hpos

theorem hasSum_oddPower :
    HasSum (fun k => oddPower z scale k / (2 * k + 1)) (scale * Real.artanh (z / scale)) := by
  have harg := argument_le hpos hz
  have h0 : (0 : ℝ) ≤ z / scale := by positivity
  have hsum := Real.hasSum_log_sub_log_of_abs_lt_one (x := z / scale)
    (by rw [abs_of_nonneg h0]; linarith)
  rw [Real.artanh_eq_half_log ⟨by linarith, by linarith⟩,
    Real.log_div (by linarith) (by linarith)]
  refine (hsum.mul_left (1 / 2)).mul_left (scale : ℝ) |>.congr_fun fun k => ?_
  unfold oddPower
  field_simp

theorem two_mul_oddPower_div_le (k : ℕ) :
    2 * (oddPower z scale (k + 1) / (2 * (k + 1 : ℕ) + 1)) ≤ oddPower z scale k / (2 * k + 1) := by
  have h := isOddSeries_oddPower hpos hz
  have hstep := h.step_le k
  have hk := h.nonneg (k + 1)
  rw [mul_div_assoc', div_le_div_iff₀ (by positivity) (by positivity)]
  push_cast
  nlinarith [mul_nonneg (Nat.cast_nonneg (α := ℝ) k) hk]

theorem oddPower_div_lt_one (hw : scale ≤ 10 ^ w) {k : ℕ} (hk : w < 2 * k + 1) :
    oddPower z scale k / (2 * k + 1) < 1 := by
  have h0 : (0 : ℝ) ≤ z / scale := by positivity
  have hscale : (scale : ℝ) ≤ 10 ^ w := by exact_mod_cast hw
  have hpow : oddPower z scale k ≤ 10 ^ w * (1 / 10) ^ (2 * k + 1) :=
    mul_le_mul hscale (pow_le_pow_left₀ h0 (argument_le hpos hz) _) (by positivity) (by positivity)
  have hlt : (10 : ℝ) ^ w < 10 ^ (2 * k + 1) := pow_lt_pow_right₀ (by norm_num) hk
  rw [one_div, inv_pow, ← div_eq_mul_inv] at hpow
  have hone := hpow.trans_lt ((div_lt_one (by positivity)).mpr hlt)
  rw [div_lt_one (by positivity)]
  linarith [Nat.cast_nonneg (α := ℝ) k]

theorem total_oddSeries_bounds (small : z ≤ scale) (hw : scale ≤ 10 ^ w) :
    (total (oddSeries z scale small) : ℝ) ≤ scale * Real.artanh (z / scale) ∧
      scale * Real.artanh (z / scale) ≤ total (oddSeries z scale small) + (w + 4) := by
  have hs : (0 : ℝ) < scale := by exact_mod_cast hpos
  have h := isOddSeries_oddPower hpos hz
  have hfirst : oddPower z scale 0 = z := by
    rw [oddPower, Nat.mul_zero, Nat.zero_add, pow_one, mul_div_cancel₀ _ hs.ne']
  have hfollows : Follows (fun k => oddPower z scale k / (2 * k + 1)) (fun _ => 2) 1
      (oddTerms (z * z / scale) scale (square_le_of_le z scale small) 1 z) :=
    h.follows (square_le_of_le z scale small) hfirst.ge (by linarith)
  have hlength := hfollows.length_le (m := w / 2 + 1) (by omega) fun k hk =>
    oddPower_div_lt_one hpos hz hw (by omega)
  have hrest : HasSum (fun k => oddPower z scale (k + 1) / (2 * (k + 1 : ℕ) + 1))
      (scale * Real.artanh (z / scale) - z) := by
    have htail := (hasSum_nat_add_iff' 1).mpr (hasSum_oddPower hpos hz)
    rw [Finset.sum_range_one, hfirst, Nat.cast_zero, mul_zero, zero_add, div_one] at htail
    exact htail
  obtain ⟨hlow, hhigh⟩ := hfollows.total_bounds (fun _ => le_refl 2)
    (fun k => div_nonneg (h.nonneg k) (by positivity)) hrest
    fun k _ => two_mul_oddPower_div_le hpos hz k
  have hcount : ((oddTerms (z * z / scale) scale (square_le_of_le z scale small) 1 z).length : ℝ) ≤
      (w / 2 : ℕ) := by
    exact_mod_cast (by omega)
  have hhalf : ((w / 2 : ℕ) : ℝ) ≤ w / 2 := Nat.cast_div_le
  rw [oddSeries, total]
  push_cast
  constructor <;> linarith

end

/-! ### Square roots -/

noncomputable def scaledLog (scale a : ℕ) : ℝ := scale * Real.log (a / scale)

variable {scale a w : ℕ}

theorem floorSqrt_bounds (n : ℕ) : floorSqrt n ^ 2 ≤ n ∧ n < (floorSqrt n + 1) ^ 2 := by
  rw [floorSqrt, floorRoot_eq_nthRoot two_ne_zero]
  exact ⟨Nat.pow_nthRoot_le (.inl two_ne_zero), Nat.lt_pow_nthRoot_add_one two_ne_zero n⟩

theorem scaledLog_floorSqrt_bounds (hpos : 0 < scale) (ha : scale ≤ a) :
    scale ≤ floorSqrt (a * scale) ∧
      2 * scaledLog scale (floorSqrt (a * scale)) ≤ scaledLog scale a ∧
      scaledLog scale a ≤ 2 * scaledLog scale (floorSqrt (a * scale)) + 2 := by
  have hle := le_floorSqrt (a * scale) scale (Nat.mul_le_mul_right scale ha)
  obtain ⟨hlow, hhigh⟩ := floorSqrt_bounds (a * scale)
  generalize floorSqrt (a * scale) = r at *
  have hs : (0 : ℝ) < scale := by exact_mod_cast hpos
  have hr : (scale : ℝ) ≤ r := by exact_mod_cast hle
  have hr0 : (0 : ℝ) < r := by linarith
  have ha0 : (0 : ℝ) < a := by exact_mod_cast hpos.trans_le ha
  have hlow' : (r : ℝ) ^ 2 ≤ a * scale := by exact_mod_cast hlow
  have hhigh' : (a : ℝ) * scale ≤ (r + 1) ^ 2 := by exact_mod_cast hhigh.le
  have htwo : ∀ t : ℝ, 2 * Real.log (t / scale) = Real.log (t ^ 2 / scale ^ 2) := by
    intro t
    rw [← div_pow, Real.log_pow]
    norm_num
  have hquotient : (a : ℝ) / scale = a * scale / scale ^ 2 := by field_simp
  refine ⟨hle, ?_, ?_⟩
  · have hlog : 2 * Real.log (r / scale) ≤ Real.log (a / scale) := by
      rw [htwo, hquotient]
      exact Real.log_le_log (by positivity) (div_le_div_of_nonneg_right hlow' (by positivity))
    unfold scaledLog
    nlinarith
  · have hlog : Real.log (a / scale) ≤ 2 * Real.log ((r + 1) / scale) := by
      rw [htwo, hquotient]
      exact Real.log_le_log (by positivity) (div_le_div_of_nonneg_right hhigh' (by positivity))
    have hunit : Real.log ((r + 1) / scale) ≤ Real.log (r / scale) + 1 / scale := by
      have hsplit : (r + 1 : ℝ) / scale = r / scale * (1 + 1 / r) := by field_simp
      rw [hsplit, Real.log_mul (by positivity) (by positivity)]
      have hone := Real.log_le_sub_one_of_pos (show (0 : ℝ) < 1 + 1 / r by positivity)
      have hless := one_div_le_one_div_of_le hs hr
      linarith
    have hmul := mul_le_mul_of_nonneg_left
      (hlog.trans (mul_le_mul_of_nonneg_left hunit two_pos.le)) hs.le
    unfold scaledLog
    have hcancel : (scale : ℝ) * (1 / scale) = 1 := mul_one_div_cancel hs.ne'
    linarith

theorem rootTimes_bounds (hpos : 0 < scale) (n : ℕ) (ha : scale ≤ a) :
    scale ≤ rootTimes scale n a ∧
      2 ^ n * scaledLog scale (rootTimes scale n a) ≤ scaledLog scale a ∧
      scaledLog scale a ≤ 2 ^ n * scaledLog scale (rootTimes scale n a) + (2 ^ (n + 1) - 2) := by
  induction n generalizing a with
  | zero => exact ⟨ha, by norm_num [rootTimes], by norm_num [rootTimes]⟩
  | succ n ih =>
    obtain ⟨hle, hlow, hhigh⟩ := scaledLog_floorSqrt_bounds hpos ha
    obtain ⟨hroot, hlow', hhigh'⟩ := ih hle
    rw [rootTimes]
    refine ⟨hroot, ?_, ?_⟩ <;> rw [pow_succ] <;> linarith [pow_succ (2 : ℝ) (n + 1)]

/-! ### The logarithm -/

theorem log_eq_two_mul_artanh {v : ℝ} (hv : 1 ≤ v) :
    Real.log v = 2 * Real.artanh ((v - 1) / (v + 1)) := by
  have h0 : 0 ≤ (v - 1) / (v + 1) := div_nonneg (by linarith) (by linarith)
  have h1 : (v - 1) / (v + 1) ≤ 1 := (div_le_one (by linarith)).mpr (by linarith)
  have hquotient : (1 + (v - 1) / (v + 1)) / (1 - (v - 1) / (v + 1)) = v := by
    have hne : v + 1 ≠ 0 := by linarith
    field_simp
    ring
  rw [Real.artanh_eq_half_log ⟨by linarith, h1⟩, hquotient]
  ring

theorem artanh_le_add {s t : ℝ} (hs : 0 ≤ s) (hst : s ≤ t) (ht : t ≤ 1 / 2) :
    Real.artanh t ≤ Real.artanh s + 2 * (t - s) := by
  rw [Real.artanh_eq_half_log ⟨by linarith, by linarith⟩,
    Real.artanh_eq_half_log ⟨by linarith, by linarith⟩]
  have hratio : (1 + t) / (1 - t) =
      (1 + s) / (1 - s) * (1 + 2 * (t - s) / ((1 - t) * (1 + s))) := by
    have h1 : 1 - t ≠ 0 := by linarith
    have h2 : 1 - s ≠ 0 := by linarith
    have h3 : 1 + s ≠ 0 := by linarith
    field_simp
    ring
  have hnonneg : 0 ≤ 2 * (t - s) / ((1 - t) * (1 + s)) :=
    div_nonneg (by linarith) (mul_nonneg (by linarith) (by linarith))
  have hdouble : 2 * (t - s) / ((1 - t) * (1 + s)) ≤ 4 * (t - s) := by
    have hhalf : 1 / 2 ≤ (1 - t) * (1 + s) := by nlinarith
    rw [div_le_iff₀ (by linarith)]
    linarith [mul_le_mul_of_nonneg_left hhalf (by linarith : 0 ≤ 4 * (t - s))]
  have hs1 : 0 < (1 + s) / (1 - s) := div_pos (by linarith) (by linarith)
  have hone := Real.log_le_sub_one_of_pos
    (show 0 < 1 + 2 * (t - s) / ((1 - t) * (1 + s)) by linarith)
  rw [hratio, Real.log_mul hs1.ne' (by linarith)]
  linarith

theorem artanhArgument_mul_bounds (hpos : 0 < scale) (ha : scale ≤ a) :
    (artanhArgument a scale : ℝ) * (a + scale) ≤ (a - scale) * scale ∧
      ((a : ℝ) - scale) * scale ≤ (a + scale) * (artanhArgument a scale + 1) := by
  have hnat : artanhArgument a scale = (a - scale) * scale / (a + scale) := by
    rw [artanhArgument, ← Int.natCast_sub ha, Int.natAbs_natCast]
  rw [hnat, ← Nat.cast_sub ha]
  constructor
  · exact_mod_cast Nat.div_mul_le_self _ _
  · exact_mod_cast (Nat.lt_mul_div_succ _ (by omega : 0 < a + scale)).le

theorem le_of_scaledLog_le (hpos : 0 < scale) (ha : scale ≤ a)
    (hlog : scaledLog scale a ≤ 4 / 25 * scale) : (a : ℝ) ≤ 25 / 21 * scale := by
  have hs : (0 : ℝ) < scale := by exact_mod_cast hpos
  have ha0 : (0 : ℝ) < a := by exact_mod_cast hpos.trans_le ha
  have hinv := Real.one_sub_inv_le_log_of_pos (div_pos ha0 hs)
  have hpart : Real.log (a / scale) ≤ 4 / 25 :=
    le_of_mul_le_mul_left (hlog.trans_eq (mul_comm _ _)) hs
  have hless : (21 : ℝ) / 25 ≤ scale / a := by
    rw [inv_div] at hinv
    linarith
  rw [le_div_iff₀ ha0] at hless
  linarith

theorem artanhArgument_bounds (hpos : 0 < scale) (ha : scale ≤ a)
    (hlog : scaledLog scale a ≤ 4 / 25 * scale) :
    10 * artanhArgument a scale ≤ scale ∧
      2 * (scale * Real.artanh (artanhArgument a scale / scale)) ≤ scaledLog scale a ∧
      scaledLog scale a ≤ 2 * (scale * Real.artanh (artanhArgument a scale / scale)) + 4 := by
  have hs : (0 : ℝ) < scale := by exact_mod_cast hpos
  have hr : (scale : ℝ) ≤ a := by exact_mod_cast ha
  have hone : 1 ≤ (a : ℝ) / scale := (one_le_div hs).mpr hr
  have hexact : ((a : ℝ) / scale - 1) / (a / scale + 1) = (a - scale) / (a + scale) := by
    field_simp
  obtain ⟨hle, hlt⟩ := artanhArgument_mul_bounds hpos ha
  have hnear := le_of_scaledLog_le hpos ha hlog
  have htenth : ((a : ℝ) - scale) / (a + scale) ≤ 1 / 10 := by
    rw [div_le_div_iff₀ (by linarith) (by norm_num)]
    linarith
  have hcut : (artanhArgument a scale : ℝ) / scale ≤ (a - scale) / (a + scale) := by
    rw [div_le_div_iff₀ hs (by linarith)]
    exact hle
  have hoff : scale * (((a : ℝ) - scale) / (a + scale) - artanhArgument a scale / scale) ≤ 1 := by
    rw [mul_sub, mul_div_cancel₀ _ hs.ne', mul_div_assoc', sub_le_iff_le_add,
      div_le_iff₀ (by linarith)]
    linarith
  have h0 : (0 : ℝ) ≤ artanhArgument a scale / scale := by positivity
  refine ⟨?_, ?_, ?_⟩
  · have hz := hcut.trans htenth
    rw [div_le_div_iff₀ hs (by norm_num)] at hz
    have hz' : (10 : ℝ) * artanhArgument a scale ≤ scale := by linarith
    exact_mod_cast hz'
  · have hmono := Real.artanh_le_artanh (by linarith) (by linarith) hcut
    rw [scaledLog, log_eq_two_mul_artanh hone, hexact]
    linarith [mul_le_mul_of_nonneg_left hmono hs.le]
  · have hmore := artanh_le_add h0 hcut (by linarith)
    rw [scaledLog, log_eq_two_mul_artanh hone, hexact]
    linarith [mul_le_mul_of_nonneg_left hmore hs.le]

/-- The logarithm of a number with one digit before its point, in units of the last digit. -/
theorem ln_bounds {a w : ℕ} (ha : powerOfTen w ≤ a) (hten : a ≤ 10 * powerOfTen w) :
    (ln a w : ℝ) ≤ scaledLog (powerOfTen w) a ∧
      scaledLog (powerOfTen w) a ≤ ln a w + 32 * (w + 7) := by
  have hpos := powerOfTen_pos w
  have hs : (0 : ℝ) < powerOfTen w := by exact_mod_cast hpos
  have hw : powerOfTen w ≤ 10 ^ w := tens_le_tens (Nat.mod_le _ _)
  obtain ⟨hroot, hlow, hhigh⟩ := rootTimes_bounds hpos rootings ha
  have hlog : scaledLog (powerOfTen w) a ≤ powerOfTen w * (5 / 2) := by
    have ha0 : (0 : ℝ) < a := by exact_mod_cast hpos.trans_le ha
    have hdigit : (a : ℝ) / powerOfTen w ≤ 10 := by
      rw [div_le_iff₀ hs]
      exact_mod_cast hten
    refine mul_le_mul_of_nonneg_left ?_ hs.le
    exact (Real.log_le_log (div_pos ha0 hs) hdigit).trans log_ten_bounds.2.le
  rw [ln_eq]
  generalize rootTimes (powerOfTen w) rootings a = root at *
  generalize powerOfTen w = scale at *
  norm_num [rootings] at hlow hhigh ⊢
  obtain ⟨hz, hbelow, habove⟩ := artanhArgument_bounds hpos hroot (by linarith)
  obtain ⟨htotal, hmissing⟩ := total_oddSeries_bounds hpos hz (artanhArgument_le root scale) hw
  rw [withSign, if_neg (by omega), Int.cast_natCast]
  constructor <;> linarith

end DeskCalculator.FixedPoint
