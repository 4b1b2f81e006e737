import DeskCalculator.Proofs.Addition
import DeskCalculator.Proofs.Order

/-!
# Differences and order

A difference is computed by aligning, rounding and holding to the range, and the comparison by signs,
leading digits and aligned mantissas. They tell the same story all the same: neither a lost term nor
the rounding changes the sign of a sum. Only the lower end of the range hides it, where a difference
too small to be represented is zero.
-/

set_option autoImplicit false

namespace DeskCalculator.Decimal

variable {x y v : Decimal} {c : Context} {digits : ℕ}

/-! ### The sign of a sum -/

theorem Eclipses.abs_lt (h : x.Eclipses y digits) : |y.value| < |x.value| := by
  have hx : x.value ≠ 0 := fun hx => not_eclipses_of_isZero hx y digits h
  have hadjusted := h.2
  exact abs_value_lt_of_adjusted_lt hx (by omega)

theorem sign_add_of_abs_lt {q r : ℚ} (h : |r| < |q|) :
    SignType.sign (q + r) = SignType.sign q := by
  rcases lt_trichotomy q 0 with hq | rfl | hq
  · rw [abs_of_neg hq] at h
    rw [sign_neg hq, sign_neg (by linarith [le_abs_self r])]
  · rw [abs_zero] at h
    exact absurd h (abs_nonneg r).not_gt
  · rw [abs_of_pos hq] at h
    rw [sign_pos hq, sign_pos (by linarith [neg_abs_le r])]

theorem sign_visibleSum (x y : Decimal) (digits : ℕ) :
    SignType.sign (x.visibleSum y digits) = SignType.sign (x.value + y.value) := by
  unfold visibleSum
  split_ifs with hx hy
  · exact (sign_add_of_abs_lt hx.abs_lt).symm
  · rw [add_comm, sign_add_of_abs_lt hy.abs_lt]
  · rfl

/-- What is rounded does not fall below the range unless the exact sum does. -/
theorem le_abs_visibleSum (hx : x.InRange) (hy : y.InRange)
    (h : 10 ^ (-maxAdjusted) ≤ |x.value + y.value|) :
    10 ^ (-maxAdjusted) ≤ |x.visibleSum y digits| := by
  have hlost : ∀ {a b : Decimal}, a.InRange → a.Eclipses b digits →
      10 ^ (-maxAdjusted) ≤ |a.value| := fun ha he =>
    (ha.bounds fun hzero => not_eclipses_of_isZero hzero _ digits he).1
  unfold visibleSum
  split_ifs with hxy hyx
  · exact hlost hx hxy
  · exact hlost hy hyx
  · exact h

theorem sign_add_cases (hx : x.InRange) (hy : y.InRange) (h : Alignable x y c)
    (hv : x.add y c = some v) :
    SignType.sign v.value = SignType.sign (x.value + y.value) ∨
      v = zero ∧ |x.value + y.value| < 10 ^ (-maxAdjusted) := by
  obtain ⟨r, hadd, -, hround⟩ := add_eq h
  obtain ⟨-, hvalue⟩ := bounded?_eq_some_iff.mp (hadd.symm.trans hv)
  by_cases hlow : |r.value| < 10 ^ (-maxAdjusted)
  · rw [if_pos hlow, ← value_zero] at hvalue
    refine .inr ⟨value_injective hvalue, ?_⟩
    by_contra hle
    have hvisible : 10 ^ (-maxAdjusted) ≤ |x.visibleSum y c.digits| :=
      le_abs_visibleSum hx hy (not_lt.mp hle)
    exact absurd hlow (not_lt.mpr (hround.ten_zpow_le_abs c.positive hvisible))
  · rw [if_neg hlow] at hvalue
    rw [hvalue, hround.sign_eq c.positive, sign_visibleSum]
    exact .inl rfl

/-! ### The order -/

theorem compare_zero_of_sign_eq {q r s : ℚ} (h : SignType.sign q = SignType.sign (r - s)) :
    compare q 0 = compare r s := by
  rcases lt_trichotomy r s with hlt | rfl | hgt
  · rw [sign_neg (sub_neg.mpr hlt), sign_eq_neg_one_iff] at h
    rw [compare_lt_iff_lt.mpr h, compare_lt_iff_lt.mpr hlt]
  · rw [sub_self, sign_zero, sign_eq_zero_iff] at h
    rw [h, compare_eq_iff_eq.mpr rfl, compare_eq_iff_eq.mpr rfl]
  · rw [sign_pos (sub_pos.mpr hgt), sign_eq_one_iff] at h
    rw [compare_gt_iff_gt.mpr h, compare_gt_iff_gt.mpr hgt]

/-- The sign of a difference tells the order of its terms. A difference that is too small for the
range may be zero all the same, but it never has the wrong sign. -/
theorem sub_agrees_cmp (hx : x.InRange) (hy : y.InRange) (h : Alignable x y c)
    (hv : x.sub y c = some v) :
    compare v.value 0 = x.cmp y ∨ v = zero ∧ |x.value - y.value| < 10 ^ (-maxAdjusted) := by
  have hsign := sign_add_cases hx (inRange_neg hy) h.neg hv
  rw [value_neg, ← sub_eq_add_neg] at hsign
  rw [cmp_eq_compare_value]
  exact hsign.imp_left compare_zero_of_sign_eq

theorem sub_agrees_cmp_instances :
    let c := Context.ofDigits 3
    let long : Decimal := ⟨1000000001, -9, .inr (by decide)⟩
    let near : Decimal := ⟨1000000002, -9, .inr (by decide)⟩
    let small : Decimal := ⟨7, -9, .inr (by decide)⟩
    let tiny : Decimal := ⟨11, -maxAdjusted - 1, .inr (by decide)⟩
    let tinier : Decimal := ⟨1, -maxAdjusted, .inr (by decide)⟩
    (∃ v, long.sub near c = some v ∧ v.value < 0 ∧ compare v.value 0 = long.cmp near) ∧
    (∃ v, small.sub long c = some v ∧ v.value < 0 ∧ compare v.value 0 = small.cmp long) ∧
      tiny.sub tinier c = some zero ∧ tiny.cmp tinier = .gt ∧
        |tiny.value - tinier.value| < 10 ^ (-maxAdjusted) := by
  intro c long near small tiny tinier
  have hlong : long.InRange := by decide +kernel
  have hnear : near.InRange := by decide +kernel
  have hsmall : small.InRange := by decide +kernel
  have htiny : tiny.InRange := by decide +kernel
  have htinier : tinier.InRange := by decide +kernel
  have hdifference : long.sub near c = some ⟨-1, -9, .inr (by decide)⟩ := by decide +kernel
  have hlost : small.sub long c = some ⟨-1, 0, .inr (by decide)⟩ := by decide +kernel
  have hzero : tiny.sub tinier c = some zero := by decide +kernel
  have horder : tiny.cmp tinier = .gt := by decide +kernel
  refine ⟨⟨_, hdifference, ?_, ?_⟩, ⟨_, hlost, ?_, ?_⟩, hzero, horder, ?_⟩
  · norm_num [value]
  · have h := sub_agrees_cmp hlong hnear (alignable_of_lt (by decide +kernel)) hdifference
    exact h.resolve_right fun h => by have := h.1; revert this; decide
  · norm_num [value]
  · exact (sub_agrees_cmp hsmall hlong (alignable_of_lt (by decide +kernel)) hlost).resolve_right
      fun h => by have := h.1; revert this; decide
  · refine ((sub_agrees_cmp htiny htinier (alignable_of_lt (by decide +kernel)) hzero).resolve_left
      fun h => ?_).2
    rw [horder, value_zero] at h
    revert h
    decide

end DeskCalculator.Decimal
