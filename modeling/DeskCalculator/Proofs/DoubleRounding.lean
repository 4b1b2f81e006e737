import DeskCalculator.Proofs.Rounding

/-!
# Rounding twice

A number rounded with some digits more than are kept, and then to the digits that are kept, is
as a rule the number rounded once. The one exception comes from the midpoints: where the first
rounding ends halfway between two numbers that can be kept, the second one goes to the even of
the two, although the number itself may lie on the other side of the midpoint.
-/

set_option autoImplicit false

namespace DeskCalculator

open DeskCalculator.Natural DeskCalculator.Decimal

def IsMidpoint (digits : ℕ) (s : ℚ) : Prop :=
  ∃ a n : ℤ, 10 ^ a ≤ |s| ∧ |s| < 10 ^ (a + 1) ∧ s = (n + 1 / 2) * 10 ^ (a + 1 - digits)

/-- The rounding `t` of a midpoint `s` lies on the other side of it than the number `q`. -/
def Strays (digits : ℕ) (q s t : ℚ) : Prop := IsMidpoint digits s ∧ (q - s) * (t - s) < 0

/-! ### Integers -/

namespace IsNearestEven

variable {q s : ℚ} {k n : ℤ}

theorem ne_half_of_lt (hlt : |s - k| < 1 / 2) (j : ℤ) : s ≠ j + 1 / 2 := by
  rintro rfl
  obtain ⟨hl, hu⟩ := abs_lt.mp hlt
  have h1 : ((k - 1 : ℤ) : ℚ) < j := by push_cast; linarith
  have h2 : (j : ℚ) < k := by linarith
  have h1' : k - 1 < j := by exact_mod_cast h1
  have h2' : j < k := by exact_mod_cast h2
  omega

/-- Off the midpoints a multiple of a finer unit is nearer to its nearest integer than to a midpoint
by at least that unit. -/
theorem abs_sub_le_of_lt {m : ℤ} {g : ℕ} (hg : 0 < g) (hs : s * tens g = m)
    (hlt : |s - k| < 1 / 2) : |s - k| * tens g ≤ tens g / 2 - 1 := by
  obtain ⟨h, hh⟩ : ∃ h : ℕ, tens g = 2 * h := by
    obtain ⟨i, rfl⟩ : ∃ i, g = i + 1 := ⟨g - 1, by omega⟩
    exact ⟨5 * tens i, by rw [tens_succ]; ring⟩
  have hpos : (0 : ℚ) < tens g := by exact_mod_cast tens_pos g
  have habs : |s - k| * tens g = |((m - k * (2 * h) : ℤ) : ℚ)| := by
    have hscaled : ((m - k * (2 * h) : ℤ) : ℚ) = (s - k) * tens g := by
      rw [sub_mul, hs, hh]
      push_cast
      rfl
    rw [hscaled, abs_mul, abs_of_pos hpos]
  have hlt' : |((m - k * (2 * h) : ℤ) : ℚ)| < h := by
    rw [← habs]
    refine (mul_lt_mul_of_pos_right hlt hpos).trans_eq ?_
    rw [hh]
    push_cast
    ring
  have hle : |m - k * (2 * h)| ≤ (h : ℤ) - 1 := by
    have : |m - k * (2 * h)| < (h : ℤ) := by exact_mod_cast hlt'
    omega
  rw [habs, hh]
  calc |((m - k * (2 * h) : ℤ) : ℚ)| ≤ ((h - 1 : ℤ) : ℚ) := by exact_mod_cast hle
    _ = ((2 * h : ℕ) : ℚ) / 2 - 1 := by push_cast; ring

theorem twice_eq_iff {m : ℤ} {g : ℕ} (hg : 0 < g) (hs : s * tens g = m)
    (hqs : |q - s| * tens g ≤ 1 / 2) (hk : IsNearestEven s k) (hn : IsNearestEven q n) :
    k = n ↔ ¬((∃ j : ℤ, s = j + 1 / 2) ∧ (q - s) * (k - s) < 0) := by
  have hpos : (0 : ℚ) < tens g := by exact_mod_cast tens_pos g
  rcases hk.near.lt_or_eq with hlt | hhalf
  · -- the first rounding is so near to `k` that `q` has it for its nearest integer too
    refine iff_of_true (unique (of_lt ?_) hn) fun h => ne_half_of_lt hlt h.1.choose h.1.choose_spec
    have hle := abs_sub_le_of_lt hg hs hlt
    have htri := mul_le_mul_of_nonneg_right (abs_sub_le q s k) hpos.le
    rw [add_mul] at htri
    refine lt_of_mul_lt_mul_right ?_ hpos.le
    linarith
  have heven := hk.even hhalf
  -- the first rounding ends on a midpoint, so the side of `q` decides
  have hone : (1 : ℚ) ≤ tens g := by exact_mod_cast tens_pos g
  have hqs' : |q - s| ≤ 1 / 2 :=
    (le_mul_of_one_le_right (abs_nonneg _) hone).trans hqs
  obtain ⟨hl, hu⟩ := abs_le.mp hqs'
  obtain ⟨nl, nu⟩ := abs_le.mp hn.near
  have hstay : |q - k| ≤ 1 / 2 → k = n := fun h => unique ⟨h, fun _ => heven⟩ hn
  rcases eq_or_eq_neg_of_abs_eq hhalf with h | h
  · have hmid : ∃ j : ℤ, s = j + 1 / 2 := ⟨k, by linarith⟩
    rw [and_iff_right hmid, show (k : ℚ) - s = -(1 / 2) by linarith]
    rcases le_or_gt q s with hle | hgt
    · exact iff_of_true (hstay (abs_le.mpr ⟨by linarith, by linarith⟩)) (by linarith)
    · refine iff_of_false ?_ (not_not.mpr (by linarith))
      rintro rfl
      linarith
  · have hmid : ∃ j : ℤ, s = j + 1 / 2 := ⟨k - 1, by push_cast; linarith⟩
    rw [and_iff_right hmid, show (k : ℚ) - s = 1 / 2 by linarith]
    rcases le_or_gt s q with hle | hgt
    · exact iff_of_true (hstay (abs_le.mpr ⟨by linarith, by linarith⟩)) (by linarith)
    · refine iff_of_false ?_ (not_not.mpr (by linarith))
      rintro rfl
      linarith

end IsNearestEven

/-! ### Significant digits -/

theorem exists_eq_mul_of_abs_eq {e b : ℤ} {s : ℚ} (h : |s| = 10 ^ e)
    (hb : b ≤ e) : ∃ n : ℤ, s = n * 10 ^ b := by
  have hpow := ten_zpow_eq_mul hb
  rcases eq_or_eq_neg_of_abs_eq h with hs | hs
  · exact ⟨tens (e - b).toNat, by rw [hs, hpow, Int.cast_natCast]⟩
  · exact ⟨-tens (e - b).toNat, by rw [hs, hpow, Int.cast_neg, Int.cast_natCast, neg_mul]⟩

namespace IsRounding

variable {digits guard : ℕ} {a : ℤ} {q r s t : ℚ}

theorem of_multiple {n : ℤ} (hle : 10 ^ a ≤ |s|) (hlt : |s| < 10 ^ (a + 1))
    (h : s = n * 10 ^ (a + 1 - digits)) : IsRounding digits s s := by
  refine .inr ⟨a, n, hle, hlt, ?_, h⟩
  rw [h, mul_div_cancel_right₀ _ (ten_zpow_pos _).ne']
  exact .of_int n

theorem exists_nearest (hd : 0 < digits) (hle : 10 ^ a ≤ |s|) (hlt : |s| ≤ 10 ^ (a + 1))
    (h : IsRounding digits s t) :
    ∃ k : ℤ, IsNearestEven (s / 10 ^ (a + 1 - digits)) k ∧ t = k * 10 ^ (a + 1 - digits) := by
  rcases hlt.lt_or_eq with hlt | heq
  · rcases h with ⟨h0, -⟩ | ⟨b, k, hle', hlt', hk, ht⟩
    · exact absurd h0 (ne_zero_of_le hle)
    · obtain rfl := eq_of_zpow_bounds hle hlt hle' hlt'
      exact ⟨k, hk, ht⟩
  · obtain ⟨n, hn⟩ := exists_eq_mul_of_abs_eq (b := a + 1 + 1 - digits) heq (by omega)
    have hlt' : |s| < 10 ^ (a + 1 + 1) := heq.trans_lt (ten_zpow_lt.mpr (by omega))
    obtain rfl := h.unique (of_multiple heq.ge hlt' hn)
    obtain ⟨k, hk⟩ := exists_eq_mul_of_abs_eq (b := a + 1 - digits) heq (by omega)
    refine ⟨k, ?_, hk⟩
    rw [hk, mul_div_cancel_right₀ _ (ten_zpow_pos _).ne']
    exact .of_int k

end IsRounding

theorem cast_ne_add_half (m j : ℤ) : (m : ℚ) ≠ j + 1 / 2 :=
  IsNearestEven.ne_half_of_lt (k := m) (by norm_num) j

theorem isMidpoint_iff {digits : ℕ} {a : ℤ} {s : ℚ} (hd : 0 < digits) (hle : 10 ^ a ≤ |s|)
    (hlt : |s| ≤ 10 ^ (a + 1)) :
    IsMidpoint digits s ↔ ∃ j : ℤ, s / 10 ^ (a + 1 - (digits : ℤ)) = j + 1 / 2 := by
  rcases hlt.lt_or_eq with hlt | heq
  · simp only [div_eq_iff (ten_zpow_pos (a + 1 - digits)).ne']
    constructor
    · rintro ⟨b, n, hle', hlt', hs⟩
      obtain rfl := eq_of_zpow_bounds hle hlt hle' hlt'
      exact ⟨n, hs⟩
    · rintro ⟨n, hs⟩
      exact ⟨a, n, hle, hlt, hs⟩
  · refine iff_of_false ?_ ?_
    · rintro ⟨b, n, hle', hlt', hs⟩
      have hb : b ≤ a + 1 := ten_zpow_le.mp (hle'.trans_eq heq)
      obtain ⟨m, hm⟩ := exists_eq_mul_of_abs_eq (b := b + 1 - digits) heq (by omega)
      exact cast_ne_add_half m n (mul_right_cancel₀ (ten_zpow_pos _).ne' (hm.symm.trans hs))
    · rintro ⟨n, hs⟩
      obtain ⟨m, hm⟩ := exists_eq_mul_of_abs_eq (b := a + 1 - digits) heq (by omega)
      rw [hm, mul_div_cancel_right₀ _ (ten_zpow_pos _).ne'] at hs
      exact cast_ne_add_half m n hs

/-- Rounding with some digits more first leads to the same number, unless it strays. -/
theorem IsRounding.twice_eq_iff {digits guard : ℕ} {q r s t : ℚ} (hd : 0 < digits)
    (hg : 0 < guard) (hs : IsRounding (digits + guard) q s) (hr : IsRounding digits q r)
    (ht : IsRounding digits s t) : t = r ↔ ¬Strays digits q s t := by
  rcases hr with ⟨rfl, rfl⟩ | ⟨a, n, hle, hlt, hn, rfl⟩
  · obtain rfl := hs.unique (.inl ⟨rfl, rfl⟩)
    refine iff_of_true (ht.unique (.inl ⟨rfl, rfl⟩)) ?_
    rintro ⟨⟨a, -, ha, -⟩, -⟩
    exact ne_zero_of_le ha rfl
  have hsle : 10 ^ a ≤ |s| := hs.ten_zpow_le_abs (by omega) hle
  have hslt : |s| ≤ 10 ^ (a + 1) := hs.abs_le_ten_zpow hlt
  obtain ⟨k, hk, rfl⟩ := ht.exists_nearest hd hsle hslt
  rw [Strays, isMidpoint_iff hd hsle hslt]
  rcases hs with ⟨rfl, -⟩ | ⟨b, m, hle', hlt', hm, rfl⟩
  · exact absurd rfl (ne_zero_of_le hle)
  obtain rfl := eq_of_zpow_bounds hle hlt hle' hlt'
  -- in units of the last digit kept
  have hunit : (10 : ℚ) ^ (a + 1 - (digits : ℤ)) =
      tens guard * 10 ^ (a + 1 - ((digits + guard : ℕ) : ℤ)) := by
    rw [ten_zpow_eq_mul (show a + 1 - ((digits + guard : ℕ) : ℤ) ≤ a + 1 - digits by omega)]
    congr 3
    omega
  have hu := ten_zpow_pos (a + 1 - digits)
  have hv := ten_zpow_pos (a + 1 - ((digits + guard : ℕ) : ℤ))
  have hT : (0 : ℚ) < tens guard := by exact_mod_cast tens_pos guard
  generalize (10 : ℚ) ^ (a + 1 - (digits : ℤ)) = u at *
  generalize (10 : ℚ) ^ (a + 1 - ((digits + guard : ℕ) : ℤ)) = v at *
  have hgrid : m * v / u * tens guard = m := by
    rw [hunit]
    field_simp
  have hnear : |q / u - m * v / u| * tens guard ≤ 1 / 2 := by
    have hscaled : q / v - m = (q / u - m * v / u) * tens guard := by
      rw [hunit]
      field_simp
    have hle := hm.near
    rwa [hscaled, abs_mul, abs_of_pos hT] at hle
  have hside : (q - m * v) * (k * u - m * v) < 0 ↔
      (q / u - m * v / u) * (k - m * v / u) < 0 := by
    have hscaled : (q - m * v) * (k * u - m * v) =
        (q / u - m * v / u) * (k - m * v / u) * (u * u) := by
      field_simp
    rw [hscaled, ← not_le, ← not_le, mul_nonneg_iff_of_pos_right (mul_pos hu hu)]
  rw [mul_left_inj' hu.ne', Int.cast_inj, IsNearestEven.twice_eq_iff hg hgrid hnear hk hn, hside]

end DeskCalculator
