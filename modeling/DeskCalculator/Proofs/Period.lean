import DeskCalculator.Proofs.Pythagoras

/-!
# Whole turns in degrees and grads

An angle in degrees or grads is converted before whole turns are taken away, with a circle constant
of a fixed number of digits. So the value after some turns is that of the angle itself only as far as
these digits reach: what the turns cost grows with their number, and past as many digits as are kept
nothing of the angle is left. An angle in radians is reduced with all its digits.
-/

set_option autoImplicit false

namespace DeskCalculator

open DeskCalculator.Natural DeskCalculator.FixedPoint DeskCalculator.Decimal

theorem NamedFunction.exists_approximates {f : NamedFunction} (hf : f ∈ [NamedFunction.sin, .cos]) :
    ∃ g F, f.Approximates g F := by
  simp only [List.mem_cons, List.not_mem_nil, or_false] at hf
  rcases hf with rfl | rfl
  · exact ⟨_, _, .sin⟩
  · exact ⟨_, _, .cos⟩

theorem abs_add_turns_lt {x n h B : ℝ} (hh : 0 ≤ h) (hh' : 2 * h ≤ 400) (hB : 100 ≤ B)
    (hx : |x| ≤ 400) (hn : |x + 400 * n| < B) : |x + n * (2 * h)| < B * 10 := by
  have hturns : |n * (2 * h)| ≤ |400 * n| := by
    rw [abs_mul n, abs_mul 400, mul_comm |n|, abs_of_nonneg (by linarith : 0 ≤ 2 * h),
      abs_of_pos (by norm_num : (0 : ℝ) < 400)]
    exact mul_le_mul_of_nonneg_right hh' (abs_nonneg n)
  have hlong : |400 * n| ≤ |x + 400 * n| + |x| := by
    calc |400 * n| = |x + 400 * n - x| := by ring_nf
      _ ≤ |x + 400 * n| + |x| := abs_sub _ _
  linarith [abs_add_le x (n * (2 * h))]

section

variable {c c' : Context} {f : NamedFunction} {unit : AngleUnit} {halfTurn x y : Decimal} {n : ℤ}

theorem exists_apply_add_turns (hc : c.Sound) (hc' : c'.Sound) (hdigits : c'.digits = c.digits)
    (hhigh : c.digits ≤ 1999999995) (hf : f ∈ [NamedFunction.sin, .cos])
    (hunit : unit.halfTurn? = some halfTurn) {k : ℕ} (hk : 2 ≤ k) (hk' : k < maxAngleDigits)
    (hx : |(x.value : ℝ)| ≤ 400) (hn : |(x.value : ℝ) + 400 * n| < 10 ^ k)
    (hy : (y.value : ℝ) = x.value + n * (2 * halfTurn.value)) (others others' : List Decimal) :
    ∃ u v : Decimal, f.apply x others unit c = .ok u ∧ f.apply y others' unit c' = .ok v ∧
      |(v.value : ℝ) - u.value| ≤ |(y.value : ℝ)| / (3 * 10 ^ (c.digits + 5)) +
        13 / 10 ^ c.digits := by
  obtain ⟨g, F, hF⟩ := NamedFunction.exists_approximates hf
  obtain ⟨K, hK⟩ := hF.isCircular
  obtain ⟨hlow, hhalf, -⟩ := halfTurn_bounds hunit
  have hlowr : (180 : ℝ) ≤ halfTurn.value := by exact_mod_cast hlow
  have hhalfr : (halfTurn.value : ℝ) ≤ 200 := by exact_mod_cast hhalf
  have hB : (10 : ℝ) ^ 2 ≤ 10 ^ k := pow_le_pow_right₀ (by norm_num) hk
  have hlong : |(y.value : ℝ)| < 10 ^ (k + 1) := by
    rw [hy, pow_succ]
    exact abs_add_turns_lt (by linarith) (by linarith) (by linarith) hx hn
  obtain ⟨u, hu, huoff⟩ := hF.exists_apply_of_unit hc hhigh hunit (n := 3) (by decide) (by decide)
    (hx.trans_lt (by norm_num)) others
  obtain ⟨v, hv, hvoff⟩ := hF.exists_apply_of_unit hc' (hdigits ▸ hhigh) hunit (Nat.succ_pos k) hk'
    hlong others'
  refine ⟨u, v, hu, hv, ?_⟩
  have hsame : F (y.value * Real.pi / halfTurn.value) = F (x.value * Real.pi / halfTurn.value) := by
    rw [← hK.periodic _ n, hy]
    congr 1
    field_simp
    ring
  rw [hsame, hdigits] at hvoff
  rw [abs_sub_comm] at huoff
  have hE : (0 : ℝ) < 10 ^ c.digits := by positivity
  calc |(v.value : ℝ) - u.value|
      ≤ |(v.value : ℝ) - F (x.value * Real.pi / halfTurn.value)| +
          |F (x.value * Real.pi / halfTurn.value) - u.value| := abs_sub_le _ _ _
    _ ≤ (|(y.value : ℝ)| / 3 + 2) / 10 ^ (c.digits + 5) + 6 / 10 ^ c.digits +
          ((400 / 3 + 2) / 10 ^ (c.digits + 5) + 6 / 10 ^ c.digits) :=
        add_le_add hvoff (huoff.trans (by gcongr))
    _ = |(y.value : ℝ)| / (3 * 10 ^ (c.digits + 5)) +
          (12 + (400 / 3 + 4) / 10 ^ 5) / 10 ^ c.digits := by
        rw [pow_add]
        field_simp
        ring
    _ ≤ |(y.value : ℝ)| / (3 * 10 ^ (c.digits + 5)) + 13 / 10 ^ c.digits := by
        gcongr
        norm_num

/-- Sine and cosine of an angle and of the same angle some turns on. Both are found, and they differ
by what the conversion of the longer angle loses: a third of a unit five digits behind the last one
for each degree or grad. An angle of fifteen digits less than are kept still has twenty right. -/
theorem apply_add_turns (hc : c.Sound) (hc' : c'.Sound) (hdigits : c'.digits = c.digits)
    (hlow : 28 ≤ c.digits) (hhigh : c.digits ≤ 1999999995) (hf : f ∈ [NamedFunction.sin, .cos])
    (hunit : unit.halfTurn? = some halfTurn) (hx : |x.value| ≤ 400)
    (hn : |x.value + 400 * n| < 10 ^ 1900) (hy : y.value = x.value + n * (2 * halfTurn.value))
    (others others' : List Decimal) :
    ∃ u v : Decimal, f.apply x others unit c = .ok u ∧ f.apply y others' unit c' = .ok v ∧
      |v.value - u.value| ≤ |y.value| / (3 * 10 ^ (c.digits + 5)) + 13 / 10 ^ c.digits ∧
      (|y.value| ≤ 2 * 10 ^ (c.digits - 15) → |v.value - u.value| ≤ 1 / 10 ^ 20) := by
  have hxr : |(x.value : ℝ)| ≤ 400 := by exact_mod_cast hx
  have hnr : |(x.value : ℝ) + 400 * n| < 10 ^ 1900 := by exact_mod_cast hn
  have hyr : (y.value : ℝ) = x.value + n * (2 * halfTurn.value) := by exact_mod_cast hy
  obtain ⟨u, v, hu, hv, hoff⟩ := exists_apply_add_turns hc hc' hdigits hhigh hf hunit (by decide)
    (by decide) hxr hnr hyr others others'
  have hbound : |v.value - u.value| ≤ |y.value| / (3 * 10 ^ (c.digits + 5)) + 13 / 10 ^ c.digits := by
    rw [← Rat.cast_le (K := ℝ)]
    push_cast
    exact hoff
  refine ⟨u, v, hu, hv, hbound, fun hshort => hbound.trans ?_⟩
  obtain ⟨d, hd⟩ : ∃ d, c.digits = d + 15 := ⟨c.digits - 15, by omega⟩
  rw [hd, Nat.add_sub_cancel] at hshort
  have hE : (10 : ℚ) ^ 28 ≤ 10 ^ c.digits := pow_le_pow_right₀ (by norm_num) hlow
  have hfirst : |y.value| / (3 * 10 ^ (c.digits + 5)) ≤ 2 / 3 / 10 ^ 20 := by
    rw [hd, add_assoc, pow_add, div_le_div_iff₀ (by positivity) (by positivity)]
    linarith
  have hsecond : (13 : ℚ) / 10 ^ c.digits ≤ 13 / 10 ^ 28 :=
    div_le_div_of_nonneg_left (by norm_num) (by norm_num) hE
  linarith

theorem apply_add_turns_thirty_degrees :
    let c : Context := { digits := 28, positive := by decide }
    let c' : Context := { c with known := { pi := afterRequests computePi [43] } }
    c.Sound ∧ c'.Sound ∧ ∃ u v : Decimal, NamedFunction.sin.apply (ofInt 30) [] .degree c = .ok u ∧
      NamedFunction.sin.apply (ofInt 390) [] .degree c' = .ok v ∧
      |v.value - u.value| ≤ 1 / 10 ^ 20 := by
  intro c c'
  have hc : c.Sound := Context.sound_afterRequests (by decide) (by decide) [] (by simp)
  have hc' : c'.Sound := Context.sound_afterRequests (by decide) (by decide) [43] (by decide)
  have hn : |(ofInt 30).value + 400 * (1 : ℤ)| < 10 ^ 1900 := by
    refine lt_of_lt_of_le ?_ (pow_le_pow_right₀ (by norm_num) (by decide : 3 ≤ 1900))
    rw [value_ofInt]
    norm_num
  have hy : (ofInt 390).value = (ofInt 30).value + (1 : ℤ) * (2 * (ofInt 180).value) := by
    simp only [value_ofInt]
    norm_num
  obtain ⟨u, v, hu, hv, -, hshort⟩ := apply_add_turns hc hc' rfl (by decide) (by decide)
    List.mem_cons_self (rfl : AngleUnit.degree.halfTurn? = _)
    (by rw [value_ofInt]; norm_num) hn hy [] []
  refine ⟨hc, hc', u, v, hu, hv, hshort ?_⟩
  rw [value_ofInt]
  norm_num

end

end DeskCalculator
