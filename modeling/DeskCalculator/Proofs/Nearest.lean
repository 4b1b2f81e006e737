import DeskCalculator.Proofs.Order
import DeskCalculator.Proofs.Rounding

/-!
# The nearest decimal

No decimal of so many digits is nearer to a number than its rounding: none that ends at the last
place kept, and none that ends below it, since the power of ten at the leading digit is nearer
than anything under it. This holds of real numbers as of rational ones. So a number lies on one side
of the middle between its rounding and any other decimal of so many digits, from which rounding
keeps the order.
-/

set_option autoImplicit false

namespace DeskCalculator

open DeskCalculator.Natural DeskCalculator.Decimal

/-! ### The nearest integer -/

section Distance

variable {K : Type*} [Field K] [LinearOrder K] [IsStrictOrderedRing K] {t u v : K} {m n : ℤ}

theorem one_le_abs_sub_add_abs_sub (t : K) (h : m ≠ n) : 1 ≤ |t - n| + |t - m| := by
  have hne : (1 : K) ≤ |((m - n : ℤ) : K)| := by
    exact_mod_cast Int.one_le_abs (sub_ne_zero.mpr h)
  have htriangle := abs_sub_le (m : K) t n
  rw [abs_sub_comm (m : K) t] at htriangle
  push_cast at hne
  linarith

theorem abs_sub_le_abs_sub_of_le_half (h : |t - n| ≤ 1 / 2) (m : ℤ) : |t - n| ≤ |t - m| := by
  rcases eq_or_ne m n with rfl | hne
  · exact le_rfl
  · have := one_le_abs_sub_add_abs_sub t hne
    linarith

theorem abs_sub_mul_eq (hu : 0 < u) (t : K) (m : ℤ) : |t - m * u| = |t / u - m| * u := by
  rw [← abs_of_pos hu, ← abs_mul, abs_of_pos hu, sub_mul, div_mul_cancel₀ _ hu.ne']

theorem abs_sub_le_abs_sub_of_between (h : v ≤ u ∧ u ≤ t ∨ t ≤ u ∧ u ≤ v) :
    |t - u| ≤ |t - v| := by
  rcases h with ⟨hvu, hut⟩ | ⟨htu, huv⟩
  · rw [abs_of_nonneg (by linarith), abs_of_nonneg (by linarith)]
    linarith
  · rw [abs_of_nonpos (by linarith), abs_of_nonpos (by linarith)]
    linarith

theorem add_div_two_le_of_abs_sub_le (h : |t - u| ≤ |t - v|) (hlt : v < u) : (v + u) / 2 ≤ t := by
  by_contra hmid
  have hgap : 0 < u - t := by linarith
  have hside : t - v < u - t := by linarith
  rw [abs_sub_comm t u, abs_of_pos hgap] at h
  exact absurd h (not_le.mpr (abs_lt.mpr ⟨by linarith, hside⟩))

theorem le_add_div_two_of_abs_sub_le (h : |t - u| ≤ |t - v|) (hlt : u < v) : t ≤ (u + v) / 2 := by
  have h' : |-t - -u| ≤ |-t - -v| := by
    rwa [neg_sub_neg, neg_sub_neg, abs_sub_comm u, abs_sub_comm v]
  have := add_div_two_le_of_abs_sub_le h' (neg_lt_neg hlt)
  linarith

end Distance

theorem isNearestEven_iff {q : ℚ} {n : ℤ} :
    IsNearestEven q n ↔ ∀ m : ℤ, m ≠ n → |q - n| < |q - m| ∨ |q - n| = |q - m| ∧ Even n := by
  constructor
  · intro h m hm
    have hsum := one_le_abs_sub_add_abs_sub q hm
    rcases h.near.lt_or_eq with hlt | heq
    · exact .inl (by linarith)
    · rcases (abs_sub_le_abs_sub_of_le_half h.near m).lt_or_eq with hlt | hsame
      · exact .inl hlt
      · exact .inr ⟨hsame, h.even heq⟩
  · intro h
    -- the neighbours of `n` decide
    have hsucc : |q - n| ≤ |q - (n + 1 : ℤ)| :=
      (h (n + 1) (by omega)).elim le_of_lt fun h => h.1.le
    have hpred : |q - n| ≤ |q - (n - 1 : ℤ)| :=
      (h (n - 1) (by omega)).elim le_of_lt fun h => h.1.le
    have hupp := le_add_div_two_of_abs_sub_le hsucc (by push_cast; linarith)
    have hlow := add_div_two_le_of_abs_sub_le hpred (by push_cast; linarith)
    push_cast at hupp hlow
    refine ⟨abs_le.mpr ⟨by linarith, by linarith⟩, fun heq => ?_⟩
    rcases eq_or_eq_neg_of_abs_eq heq with hq | hq
    · refine (h (n + 1) (by omega)).elim (fun hlt => absurd hlt (not_lt.mpr ?_)) And.right
      rw [heq, show q - ((n + 1 : ℤ) : ℚ) = -(1 / 2) by push_cast; linarith, abs_neg]
      exact (abs_of_pos (by norm_num)).le
    · refine (h (n - 1) (by omega)).elim (fun hlt => absurd hlt (not_lt.mpr ?_)) And.right
      rw [heq, show q - ((n - 1 : ℤ) : ℚ) = 1 / 2 by push_cast; linarith]
      exact (abs_of_pos (by norm_num)).le

/-- `s` ends at a place, and of all numbers that do it is the nearest to `q`: any other one is
farther away, or as far away and the last digit of `s` is even. -/
def IsNearestAt (place : ℤ) (q s : ℚ) : Prop :=
  ∃ n : ℤ, s = n * 10 ^ place ∧ ∀ m : ℤ, m ≠ n →
    |q - s| < |q - m * 10 ^ place| ∨ |q - s| = |q - m * 10 ^ place| ∧ Even n

theorem isNearestAt_iff {place : ℤ} {q s : ℚ} : IsNearestAt place q s ↔
    ∃ n : ℤ, s = n * 10 ^ place ∧ IsNearestEven (q / 10 ^ place) n := by
  have hpos := ten_zpow_pos place
  refine exists_congr fun n => and_congr_right ?_
  rintro rfl
  simp only [isNearestEven_iff, abs_sub_mul_eq hpos, mul_lt_mul_iff_left₀ hpos, mul_left_inj' hpos.ne']

theorem IsNearestAt.unique {place : ℤ} {q r s : ℚ} (hr : IsNearestAt place q r)
    (hs : IsNearestAt place q s) : r = s := by
  obtain ⟨m, rfl, hm⟩ := isNearestAt_iff.mp hr
  obtain ⟨n, rfl, hn⟩ := isNearestAt_iff.mp hs
  rw [hm.unique hn]

/-! ### Rounding a real number -/

/-- `r` is the real number `ρ` rounded to significant digits: with the leading digit of `ρ` at
`10 ^ a`, the nearest multiple of the last digit kept, and the even one halfway between two. -/
def IsRealRounding (digits : ℕ) (ρ : ℝ) (r : ℚ) : Prop :=
  ρ = 0 ∧ r = 0 ∨ ∃ a n : ℤ, 10 ^ a ≤ |ρ| ∧ |ρ| < 10 ^ (a + 1) ∧
    |ρ / 10 ^ (a + 1 - (digits : ℤ)) - n| ≤ 1 / 2 ∧
    (|ρ / 10 ^ (a + 1 - (digits : ℤ)) - n| = 1 / 2 → Even n) ∧
    r = n * 10 ^ (a + 1 - (digits : ℤ))

theorem cast_ten_zpow (a : ℤ) : (((10 : ℚ) ^ a : ℚ) : ℝ) = 10 ^ a := by
  push_cast
  rfl

theorem ten_zpow_le_abs_cast_iff {a : ℤ} {q : ℚ} : 10 ^ a ≤ |(q : ℝ)| ↔ 10 ^ a ≤ |q| := by
  rw [← cast_ten_zpow, ← Rat.cast_abs, Rat.cast_le]

theorem abs_cast_lt_ten_zpow_iff {a : ℤ} {q : ℚ} : |(q : ℝ)| < 10 ^ a ↔ |q| < 10 ^ a := by
  rw [← cast_ten_zpow, ← Rat.cast_abs, Rat.cast_lt]

theorem isRealRounding_cast_iff {digits : ℕ} {q r : ℚ} :
    IsRealRounding digits q r ↔ IsRounding digits q r := by
  refine or_congr (and_congr_left fun _ => Rat.cast_eq_zero) ?_
  refine exists_congr fun a => exists_congr fun n => ?_
  have hhalf : ((1 / 2 : ℚ) : ℝ) = 1 / 2 := by norm_num
  have hdist : |(q : ℝ) / 10 ^ (a + 1 - (digits : ℤ)) - n| =
      ((|q / 10 ^ (a + 1 - (digits : ℤ)) - n| : ℚ) : ℝ) := by push_cast; rfl
  rw [hdist, ← hhalf, Rat.cast_le, Rat.cast_inj, ten_zpow_le_abs_cast_iff,
    abs_cast_lt_ten_zpow_iff]
  constructor
  · rintro ⟨hle, hlt, hnear, heven, hr⟩
    exact ⟨hle, hlt, ⟨hnear, heven⟩, hr⟩
  · rintro ⟨hle, hlt, hn, hr⟩
    exact ⟨hle, hlt, hn.near, hn.even, hr⟩

theorem Decimal.exists_eq_mul_of_le {z : Decimal} {digits : ℕ} {a : ℤ} (hz : z.length ≤ digits)
    (h : 10 ^ a ≤ |z.value|) : ∃ m : ℤ, z.value = m * 10 ^ (a + 1 - digits) := by
  have hlead := ten_zpow_lt.mp (h.trans_lt (abs_value_lt z))
  have hadj := z.adjusted_eq
  exact ⟨_, value_eq_mul (by omega)⟩

theorem Decimal.exists_eq_ten_zpow {digits : ℕ} (hd : 0 < digits) (e : ℤ) :
    ∃ z : Decimal, z.length ≤ digits ∧ z.value = 10 ^ e := by
  refine ⟨ofScaled 1 e, length_ofScaled_le e hd (tens_pos digits), ?_⟩
  rw [value_ofScaled, Int.cast_one, one_mul]

namespace IsRealRounding

variable {digits : ℕ} {ρ : ℝ} {r : ℚ} {z : Decimal}

theorem neg (h : IsRealRounding digits ρ r) : IsRealRounding digits (-ρ) (-r) := by
  rcases h with ⟨hρ, hr⟩ | ⟨a, n, hle, hlt, hnear, heven, hr⟩
  · exact .inl ⟨by rw [hρ, neg_zero], by rw [hr, neg_zero]⟩
  have hdist : |-ρ / 10 ^ (a + 1 - (digits : ℤ)) - ((-n : ℤ) : ℝ)| =
      |ρ / 10 ^ (a + 1 - (digits : ℤ)) - n| := by
    rw [← abs_neg (ρ / 10 ^ (a + 1 - (digits : ℤ)) - n), neg_sub', neg_div, Int.cast_neg]
  refine .inr ⟨a, -n, by rwa [abs_neg], by rwa [abs_neg], hdist ▸ hnear,
    fun h => (heven (hdist ▸ h)).neg, ?_⟩
  rw [hr, Int.cast_neg, neg_mul]

theorem eq_zero (h : IsRealRounding digits ρ r) (hρ : ρ = 0) : r = 0 := by
  rcases h with ⟨-, hr⟩ | ⟨a, -, hle, -⟩
  · exact hr
  · rw [hρ, abs_zero] at hle
    exact absurd hle (not_le.mpr (zpow_pos (by norm_num) a))

theorem abs_sub_le_abs_sub (hd : 0 < digits) (h : IsRealRounding digits ρ r)
    (hz : z.length ≤ digits) : |ρ - r| ≤ |ρ - z.value| := by
  rcases h with ⟨rfl, rfl⟩ | ⟨a, n, hle, hlt, hnear, -, rfl⟩
  · simp
  have hpos : (0 : ℝ) < 10 ^ (a + 1 - (digits : ℤ)) := zpow_pos (by norm_num) _
  -- at the last place kept
  have hplace : ∀ m : ℤ, |ρ - ((n * 10 ^ (a + 1 - (digits : ℤ)) : ℚ) : ℝ)| ≤
      |ρ - ((m * 10 ^ (a + 1 - (digits : ℤ)) : ℚ) : ℝ)| := by
    intro m
    simp only [Rat.cast_mul, Rat.cast_intCast, cast_ten_zpow, abs_sub_mul_eq hpos]
    exact mul_le_mul_of_nonneg_right (abs_sub_le_abs_sub_of_le_half hnear m) hpos.le
  rcases le_or_gt (10 ^ a) |z.value| with hza | hza
  · obtain ⟨m, hm⟩ := exists_eq_mul_of_le hz hza
    rw [hm]
    exact hplace m
  · -- the power of ten at the leading digit lies between `z` and the number
    obtain ⟨hzl, hzu⟩ := abs_lt.mp (abs_cast_lt_ten_zpow_iff.mpr hza)
    have hpow := ten_zpow_eq_mul (show a + 1 - (digits : ℤ) ≤ a by omega)
    generalize tens (a - (a + 1 - digits)).toNat = t at hpow
    rcases le_abs.mp hle with hρ | hρ
    · have hten : (((t : ℤ) * 10 ^ (a + 1 - (digits : ℤ)) : ℚ) : ℝ) = 10 ^ a := by
        rw [Int.cast_natCast, ← hpow, cast_ten_zpow]
      refine (hplace t).trans ?_
      rw [hten]
      exact abs_sub_le_abs_sub_of_between (.inl ⟨hzu.le, hρ⟩)
    · have hten : (((-t : ℤ) * 10 ^ (a + 1 - (digits : ℤ)) : ℚ) : ℝ) = -10 ^ a := by
        rw [Int.cast_neg, Int.cast_natCast, neg_mul, ← hpow, Rat.cast_neg, cast_ten_zpow]
      refine (hplace (-t)).trans ?_
      rw [hten]
      exact abs_sub_le_abs_sub_of_between (.inr ⟨le_neg.mp hρ, hzl.le⟩)

theorem middle_le (hd : 0 < digits) (h : IsRealRounding digits ρ r) (hz : z.length ≤ digits)
    (hlt : z.value < r) : ((z.value : ℝ) + r) / 2 ≤ ρ :=
  add_div_two_le_of_abs_sub_le (h.abs_sub_le_abs_sub hd hz) (by exact_mod_cast hlt)

theorem le_middle (hd : 0 < digits) (h : IsRealRounding digits ρ r) (hz : z.length ≤ digits)
    (hlt : r < z.value) : ρ ≤ ((r : ℝ) + z.value) / 2 :=
  le_add_div_two_of_abs_sub_le (h.abs_sub_le_abs_sub hd hz) (by exact_mod_cast hlt)

theorem le_of_le (hd : 0 < digits) (h : IsRealRounding digits ρ r) (hz : z.length ≤ digits)
    (hle : z.value ≤ ρ) : z.value ≤ r := by
  by_contra hlt
  have hlt' : (r : ℝ) < z.value := by exact_mod_cast not_le.mp hlt
  have := h.le_middle hd hz (not_le.mp hlt)
  linarith

theorem le_of_ge (hd : 0 < digits) (h : IsRealRounding digits ρ r) (hz : z.length ≤ digits)
    (hle : ρ ≤ z.value) : r ≤ z.value := by
  by_contra hlt
  have hlt' : (z.value : ℝ) < r := by exact_mod_cast not_le.mp hlt
  have := h.middle_le hd hz (not_le.mp hlt)
  linarith

theorem ten_zpow_le_abs (hd : 0 < digits) (h : IsRealRounding digits ρ r) {e : ℤ}
    (he : 10 ^ e ≤ |ρ|) : 10 ^ e ≤ |r| := by
  obtain ⟨z, hz, hzv⟩ := exists_eq_ten_zpow hd e
  rw [← hzv]
  rw [← cast_ten_zpow, ← hzv] at he
  rcases le_abs.mp he with hρ | hρ
  · exact (h.le_of_le hd hz hρ).trans (le_abs_self r)
  · exact (h.neg.le_of_le hd hz hρ).trans (neg_le_abs r)

theorem abs_le_ten_zpow (hd : 0 < digits) (h : IsRealRounding digits ρ r) {e : ℤ}
    (he : |ρ| ≤ 10 ^ e) : |r| ≤ 10 ^ e := by
  obtain ⟨z, hz, hzv⟩ := exists_eq_ten_zpow hd e
  rw [← hzv]
  rw [← cast_ten_zpow, ← hzv] at he
  obtain ⟨hρl, hρu⟩ := abs_le.mp he
  have hupp := h.le_of_ge hd hz hρu
  have hlow := h.neg.le_of_ge hd hz (neg_le.mp hρl)
  exact abs_le.mpr ⟨neg_le.mp hlow, hupp⟩

end IsRealRounding

/-- Real numbers between neighbours on a grid finer than the last digit kept round as the rational
numbers there do. -/
theorem IsRounding.isRealRounding_of_between {digits : ℕ} {s k a : ℤ} {q r : ℚ} {ρ : ℝ}
    (h : IsRounding digits q r) (hq : Between s k q) (hk : 0 ≤ k) (hlow : (k : ℝ) * 10 ^ s < ρ)
    (hupp : ρ < ((k : ℝ) + 1) * 10 ^ s) (ha : 10 ^ a ≤ |q|) (hs : s ≤ a - digits) :
    IsRealRounding digits ρ r := by
  obtain ⟨b, n, hsb, hle, hlt, hr, hmidl, hmidu⟩ := h.exists_midpoints hq ha hs
  have hgrid : (0 : ℚ) ≤ k * 10 ^ s := mul_nonneg (by exact_mod_cast hk) (ten_zpow_pos s).le
  rw [abs_of_pos (hgrid.trans_lt hq.left)] at hle hlt
  have hlead := hq.le_left (d := b) (m := 1) (by omega) (by rwa [Int.cast_one, one_mul])
  have hnext := hq.right_le (d := b + 1) (m := 1) (by omega) (by simpa using hlt.le)
  rw [Int.cast_one, one_mul, ← Rat.cast_le (K := ℝ), cast_ten_zpow] at hlead hnext
  rw [← Rat.cast_le (K := ℝ)] at hmidl hmidu
  push_cast at hlead hnext hmidl hmidu
  have hpos : (0 : ℝ) < 10 ^ (b + 1 - (digits : ℤ)) := zpow_pos (by norm_num) _
  have hρ : |ρ| = ρ := abs_of_pos ((zpow_pos (by norm_num) b).trans_le (hlead.trans hlow.le))
  have hdistl := (lt_div_iff₀ hpos).mpr (hmidl.trans_lt hlow)
  have hdistu := (div_lt_iff₀ hpos).mpr (hupp.trans_le hmidu)
  have hnear : |ρ / 10 ^ (b + 1 - (digits : ℤ)) - n| < 1 / 2 :=
    abs_lt.mpr ⟨by linarith, by linarith⟩
  refine .inr ⟨b, n, ?_, ?_, hnear.le, fun heq => absurd heq hnear.ne, hr⟩ <;> rw [hρ]
  · exact hlead.trans hlow.le
  · exact hupp.trans_le hnext

/-! ### Rounding decimals -/

namespace Decimal

variable {digits : ℕ}

theorem round_isRealRounding (x : Decimal) (hd : 0 < digits) :
    IsRealRounding digits x.value (x.round digits).value :=
  isRealRounding_cast_iff.mpr (round_isRounding x hd)

theorem value_round_le_value_round {x y : Decimal} (hd : 0 < digits) (h : x.value ≤ y.value) :
    (x.round digits).value ≤ (y.round digits).value := by
  by_contra hlt
  rw [not_le] at hlt
  have hx := (round_isRealRounding x hd).middle_le hd (length_round_le y hd) hlt
  have hy := (round_isRealRounding y hd).le_middle hd (length_round_le x hd) hlt
  have hle : (y.value : ℝ) ≤ x.value := hy.trans hx
  have heq : x = y := value_injective (h.antisymm (by exact_mod_cast hle))
  rw [heq] at hlt
  exact lt_irrefl _ hlt

theorem round_isNearestAt (x : Decimal) (hd : 0 < digits) :
    IsNearestAt (x.adjusted + 1 - digits) x.value (x.round digits).value := by
  rw [isNearestAt_iff]
  rcases round_isRounding x hd with ⟨hx, hr⟩ | ⟨a, n, hle, hlt, hn, hr⟩
  · refine ⟨0, by rw [hr, Int.cast_zero, zero_mul], ?_⟩
    rw [hx, zero_div]
    exact .of_int 0
  · obtain rfl := eq_of_zpow_bounds hle hlt
      (le_abs_value (IsRounding.ne_zero_of_le hle)) (abs_value_lt x)
    exact ⟨n, hr, hn⟩

theorem round_eq_round_max (x : Decimal) (digits : ℕ) :
    x.round digits = x.round (max digits 1) := by
  simp only [round, max_assoc, max_self]

/-- Rounding gives the decimal of so many digits that is nearest to the number at the last place
kept, and the even one halfway between two; it is the only one. No decimal of so many digits,
wherever it ends, is nearer. The relative error is at most half a unit of the last digit. A second
rounding changes nothing, rounding commutes with negation, and it keeps the order. -/
theorem round_nearest (x : Decimal) (digits : ℕ) :
    let kept := max digits 1
    let r := x.round digits
    (∀ s : Decimal, s = r ↔
      s.length ≤ kept ∧ IsNearestAt (x.adjusted + 1 - kept) x.value s.value) ∧
    (∀ z : Decimal, z.length ≤ kept → |x.value - r.value| ≤ |x.value - z.value|) ∧
    |r.value - x.value| ≤ 5 * 10 ^ (-(kept : ℤ)) * |x.value| ∧
    r.round digits = r ∧
    (-x).round digits = -r ∧
    ∀ y : Decimal, x.cmp y ≠ .gt → r.cmp (y.round digits) ≠ .gt := by
  have hd : 0 < max digits 1 := Nat.lt_of_lt_of_le Nat.one_pos (le_max_right _ _)
  simp only [round_eq_round_max _ digits]
  generalize max digits 1 = kept at *
  have hround := round_isRounding x hd
  refine ⟨fun s => ⟨?_, fun ⟨_, hs⟩ => ?_⟩, fun z hz => ?_, ?_, round_round x hd, round_neg x hd,
    fun y hxy => ?_⟩
  · rintro rfl
    exact ⟨length_round_le x hd, round_isNearestAt x hd⟩
  · exact value_injective (hs.unique (round_isNearestAt x hd))
  · exact_mod_cast (round_isRealRounding x hd).abs_sub_le_abs_sub hd hz
  · rw [abs_sub_comm]
    refine hround.abs_sub_le_mul.trans_eq ?_
    rw [sub_eq_add_neg, ten_zpow_add, zpow_one]
    ring
  · rw [cmp_eq_compare_value] at hxy ⊢
    exact compare_le_iff_le.mpr (value_round_le_value_round hd (compare_le_iff_le.mp hxy))

theorem round_nearest_halves :
    let x : Decimal := ⟨25, -1, .inr (by decide)⟩
    let y : Decimal := ⟨35, -1, .inr (by decide)⟩
    let three : Decimal := ⟨3, 0, .inr (by decide)⟩
    x.round 1 = ⟨2, 0, .inr (by decide)⟩ ∧ y.round 1 = ⟨4, 0, .inr (by decide)⟩ ∧
      |x.value - (x.round 1).value| ≤ |x.value - three.value| ∧
      |y.value - (y.round 1).value| ≤ |y.value - three.value| ∧
      (x.round 1).cmp (y.round 1) ≠ .gt := by
  intro x y three
  obtain ⟨-, hx, -, -, -, horder⟩ := round_nearest x 1
  obtain ⟨-, hy, -⟩ := round_nearest y 1
  exact ⟨by decide +kernel, by decide +kernel, hx three (by decide +kernel),
    hy three (by decide +kernel), horder y (by decide +kernel)⟩

end Decimal

end DeskCalculator
