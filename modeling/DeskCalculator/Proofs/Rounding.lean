import DeskCalculator.Proofs.Value

/-!
# Rounding once

What it is to round a rational number to a number of significant digits, half to
even, without a word on how it is computed. Rounding a decimal does this, and
nothing else does: the rounded number is unique. Two numbers between the same
neighbours on a grid finer than the rounding positions round alike.
-/

set_option autoImplicit false

namespace DeskCalculator

open DeskCalculator.Natural

structure IsNearestEven (q : ℚ) (n : ℤ) : Prop where
  near : |q - n| ≤ 1 / 2
  even : |q - n| = 1 / 2 → Even n

namespace IsNearestEven

theorem neg {q : ℚ} {n : ℤ} (h : IsNearestEven q n) : IsNearestEven (-q) (-n) := by
  have ha : |-q - ((-n : ℤ) : ℚ)| = |q - n| := by
    rw [← abs_neg (q - n)]
    push_cast
    ring_nf
  exact ⟨ha ▸ h.near, fun he => (h.even (ha ▸ he)).neg⟩

theorem of_int (n : ℤ) : IsNearestEven n n := by
  constructor <;> simp

theorem of_lt {q : ℚ} {n : ℤ} (h : |q - n| < 1 / 2) : IsNearestEven q n :=
  ⟨h.le, fun he => absurd he h.ne⟩

theorem unique {q : ℚ} {m n : ℤ} (hm : IsNearestEven q m) (hn : IsNearestEven q n) : m = n := by
  have h1 := abs_le.mp hm.near
  have h2 := abs_le.mp hn.near
  by_contra hne
  -- two nearest integers are neighbours, with `q` in the middle and one of them odd
  have hle : (m : ℚ) - n ≤ 1 := by linarith [h1.1, h2.2]
  have hge : (-1 : ℚ) ≤ m - n := by linarith [h1.2, h2.1]
  have hcases : m - n = 1 ∨ m - n = -1 := by
    have hle' : m - n ≤ 1 := by exact_mod_cast hle
    have hge' : -1 ≤ m - n := by exact_mod_cast hge
    omega
  have hmid : |q - m| = 1 / 2 ∧ |q - n| = 1 / 2 := by
    rcases hcases with h | h
    · have hq : (m : ℚ) - n = 1 := by exact_mod_cast h
      have : q - m = -(1 / 2) := by linarith [h1.1, h2.2]
      have : q - n = 1 / 2 := by linarith [h1.1, h2.2]
      simp [*]
    · have hq : (m : ℚ) - n = -1 := by exact_mod_cast h
      have : q - m = 1 / 2 := by linarith [h1.2, h2.1]
      have : q - n = -(1 / 2) := by linarith [h1.2, h2.1]
      simp [*]
  obtain ⟨a, ha⟩ := hm.even hmid.1
  obtain ⟨b, hb⟩ := hn.even hmid.2
  omega

theorem le_of_le {q : ℚ} {m n : ℤ} (h : IsNearestEven q n) (hm : (m : ℚ) ≤ q) : m ≤ n := by
  have h1 := (abs_le.mp h.near).2
  have hlt : (m : ℚ) < n + 1 := by linarith
  have : m < n + 1 := by exact_mod_cast hlt
  omega

theorem le_of_ge {q : ℚ} {m n : ℤ} (h : IsNearestEven q n) (hm : q ≤ m) : n ≤ m := by
  have h1 := (abs_le.mp h.near).1
  have hlt : (n : ℚ) < m + 1 := by linarith
  have : n < m + 1 := by exact_mod_cast hlt
  omega

end IsNearestEven

theorem isNearestEven_halfEven (n : ℕ) {d : ℕ} (hd : 0 < d) :
    IsNearestEven ((n : ℚ) / d) (halfEven n d : ℕ) := by
  have hdq : (0 : ℚ) < d := by exact_mod_cast hd
  -- the quotient is `k + r / d`, and the fraction is compared with a half
  obtain ⟨k, r, hk, hr⟩ : ∃ k r, n / d = k ∧ n % d = r := ⟨_, _, rfl, rfl⟩
  have hn : d * k + r = n := by rw [← hk, ← hr, Nat.div_add_mod]
  have hrd : r < d := hr ▸ Nat.mod_lt n hd
  obtain ⟨t, ht⟩ : ∃ t : ℚ, (r : ℚ) = t * d := ⟨r / d, (div_mul_cancel₀ _ hdq.ne').symm⟩
  have hq : (n : ℚ) / d = k + t := by
    rw [← hn, div_eq_iff hdq.ne']
    push_cast
    rw [ht]
    ring
  have ht0 : 0 ≤ t := by
    have h : (0 : ℚ) ≤ t * d := ht ▸ Nat.cast_nonneg r
    exact nonneg_of_mul_nonneg_left h hdq
  have ht1 : t < 1 := by
    have h : t * d < 1 * d := by
      rw [← ht, one_mul]
      exact_mod_cast hrd
    exact lt_of_mul_lt_mul_right h hdq.le
  have hlt : d < 2 * r ↔ 1 / 2 < t := by
    have h : ((d : ℕ) : ℚ) < (2 * r : ℕ) ↔ 1 / 2 * (d : ℚ) < t * d := by
      rw [← ht]
      push_cast
      constructor <;> intro h <;> linarith
    rw [← Nat.cast_lt (α := ℚ), h, mul_lt_mul_iff_left₀ hdq]
  have heq : 2 * r = d ↔ t = 1 / 2 := by
    have h : ((2 * r : ℕ) : ℚ) = (d : ℕ) ↔ t * d = 1 / 2 * (d : ℚ) := by
      rw [← ht]
      push_cast
      constructor <;> intro h <;> linarith
    rw [← Nat.cast_inj (R := ℚ), h, mul_left_inj' hdq.ne']
  have hup : |(k : ℚ) + t - ((k + 1 : ℕ) : ℤ)| = 1 - t := by
    rw [abs_of_neg (by push_cast; linarith)]
    push_cast
    ring
  have hdown : |(k : ℚ) + t - ((k : ℕ) : ℤ)| = t := by
    rw [abs_of_nonneg (by push_cast; linarith)]
    push_cast
    ring
  rw [hq]
  simp only [halfEven, hk, hr]
  split_ifs with h1 h2
  · have h := hlt.mp h1
    exact ⟨by rw [hup]; linarith, fun hh => by rw [hup] at hh; linarith⟩
  · have h := heq.mp h2.1
    refine ⟨by rw [hup]; linarith, fun _ => ?_⟩
    exact (Int.even_coe_nat _).mpr (Nat.even_iff.mpr (by omega))
  · have h : t ≤ 1 / 2 := not_lt.mp fun h => h1 (hlt.mpr h)
    refine ⟨by rw [hdown]; exact h, fun hh => ?_⟩
    have hodd : ¬ k % 2 = 1 := fun ho => h2 ⟨heq.mpr (hdown ▸ hh), ho⟩
    exact (Int.even_coe_nat _).mpr (Nat.even_iff.mpr (by omega))

/-- `r` is `q` rounded to significant digits: with the leading digit of `q` at `10 ^ a`, the
nearest multiple of the last digit kept. -/
def IsRounding (digits : ℕ) (q r : ℚ) : Prop :=
  q = 0 ∧ r = 0 ∨ ∃ a n : ℤ, 10 ^ a ≤ |q| ∧ |q| < 10 ^ (a + 1) ∧
    IsNearestEven (q / 10 ^ (a + 1 - digits)) n ∧ r = n * 10 ^ (a + 1 - digits)

namespace IsRounding

open Decimal

theorem neg {digits : ℕ} {q r : ℚ} (h : IsRounding digits q r) : IsRounding digits (-q) (-r) := by
  rcases h with ⟨hq, hr⟩ | ⟨a, n, hle, hlt, hn, hr⟩
  · exact Or.inl ⟨by rw [hq, neg_zero], by rw [hr, neg_zero]⟩
  · refine Or.inr ⟨a, -n, by rwa [abs_neg], by rwa [abs_neg], ?_, ?_⟩
    · rw [neg_div]
      exact hn.neg
    · rw [hr]
      push_cast
      ring

theorem ne_zero_of_le {a : ℤ} {q : ℚ} (h : (10 : ℚ) ^ a ≤ |q|) : q ≠ 0 := by
  rintro rfl
  rw [abs_zero] at h
  exact absurd h (not_le.mpr (ten_zpow_pos a))

theorem ten_zpow_le_abs {digits : ℕ} (hd : 0 < digits) {e : ℤ} {q r : ℚ}
    (h : IsRounding digits q r) (he : 10 ^ e ≤ |q|) : 10 ^ e ≤ |r| := by
  rcases h with ⟨hq, -⟩ | ⟨a, n, hle, hlt, hn, hr⟩
  · exact absurd hq (ne_zero_of_le he)
  have hea : e ≤ a := by
    have := ten_zpow_lt.mp (he.trans_lt hlt)
    omega
  have hpow := ten_zpow_eq_mul (show a + 1 - digits ≤ a by omega)
  have hpos := ten_zpow_pos (a + 1 - digits)
  rw [hpow] at hle
  refine (ten_zpow_le.mpr hea).trans ?_
  rw [hpow, hr, abs_mul, abs_of_pos hpos]
  generalize (10 : ℚ) ^ (a + 1 - (digits : ℤ)) = u at *
  refine mul_le_mul_of_nonneg_right ?_ hpos.le
  generalize tens (a - (a + 1 - digits)).toNat = m at *
  rcases le_abs.mp hle with hle | hle
  · have := hn.le_of_le (m := m) (by rw [Int.cast_natCast, le_div_iff₀ hpos]; exact hle)
    exact le_trans (by exact_mod_cast this) (le_abs_self (n : ℚ))
  · have := hn.le_of_ge (m := -m) (by
      rw [Int.cast_neg, Int.cast_natCast, div_le_iff₀ hpos]
      linarith)
    refine le_trans ?_ (neg_le_abs (n : ℚ))
    exact_mod_cast (show (m : ℤ) ≤ -n by omega)

theorem abs_le_ten_zpow {digits : ℕ} {e : ℤ} {q r : ℚ}
    (h : IsRounding digits q r) (he : |q| < 10 ^ e) : |r| ≤ 10 ^ e := by
  rcases h with ⟨-, hr⟩ | ⟨a, n, hle, hlt, hn, hr⟩
  · rw [hr, abs_zero]
    exact (ten_zpow_pos e).le
  have hea : a + 1 ≤ e := by
    have := ten_zpow_lt.mp (hle.trans_lt he)
    omega
  have hpow := ten_zpow_eq_mul (show a + 1 - digits ≤ a + 1 by omega)
  have hpos := ten_zpow_pos (a + 1 - digits)
  rw [hpow] at hlt
  refine le_trans ?_ (ten_zpow_le.mpr hea)
  rw [hpow, hr, abs_mul, abs_of_pos hpos]
  generalize (10 : ℚ) ^ (a + 1 - (digits : ℤ)) = u at *
  refine mul_le_mul_of_nonneg_right ?_ hpos.le
  generalize tens (a + 1 - (a + 1 - digits)).toNat = m at *
  obtain ⟨hl, hu⟩ := abs_lt.mp hlt
  have h1 := hn.le_of_ge (m := m) (by rw [Int.cast_natCast, div_le_iff₀ hpos]; exact hu.le)
  have h2 := hn.le_of_le (m := -m) (by
    rw [Int.cast_neg, Int.cast_natCast, le_div_iff₀ hpos]
    linarith)
  have h3 : |n| ≤ m := abs_le.mpr ⟨h2, h1⟩
  exact_mod_cast h3

theorem unique {digits : ℕ} {q r s : ℚ} (hr : IsRounding digits q r)
    (hs : IsRounding digits q s) : r = s := by
  rcases hr with ⟨hq, hr⟩ | ⟨a, m, hle, hlt, hm, hr⟩
  · rcases hs with ⟨-, hs⟩ | ⟨b, n, hle, -, -, -⟩
    · rw [hr, hs]
    · exact absurd hq (ne_zero_of_le hle)
  · rcases hs with ⟨hq, -⟩ | ⟨b, n, hle', hlt', hn, hs⟩
    · exact absurd hq (ne_zero_of_le hle)
    · obtain rfl := eq_of_zpow_bounds hle hlt hle' hlt'
      rw [hr, hs, hm.unique hn]

theorem abs {digits : ℕ} {q r : ℚ} (h : IsRounding digits q r) : IsRounding digits |q| |r| := by
  have hnonneg : ∀ {q r : ℚ}, 0 ≤ q → IsRounding digits q r → 0 ≤ r := by
    rintro q r hq (⟨-, rfl⟩ | ⟨a, n, -, -, hn, rfl⟩)
    · exact le_refl 0
    · have hn0 : 0 ≤ n := hn.le_of_le (by
        rw [Int.cast_zero]
        exact div_nonneg hq (ten_zpow_pos _).le)
      exact mul_nonneg (by exact_mod_cast hn0) (ten_zpow_pos _).le
  rcases le_total 0 q with hq | hq
  · rwa [abs_of_nonneg hq, abs_of_nonneg (hnonneg hq h)]
  · have hr := hnonneg (neg_nonneg.mpr hq) h.neg
    rw [abs_of_nonpos hq, abs_of_nonpos (neg_nonneg.mp hr)]
    exact h.neg

theorem ten_zpow_le_of_le {digits : ℕ} (hd : 0 < digits) {e : ℤ} {q r : ℚ}
    (h : IsRounding digits q r) (hq : 10 ^ e ≤ q) : 10 ^ e ≤ r := by
  have habs := h.abs
  rw [abs_of_pos ((ten_zpow_pos e).trans_le hq)] at habs
  rw [← habs.unique h]
  exact h.ten_zpow_le_abs hd (hq.trans (le_abs_self q))

theorem sign_eq {digits : ℕ} (hd : 0 < digits) {q r : ℚ} (h : IsRounding digits q r) :
    SignType.sign r = SignType.sign q := by
  have hpos : ∀ {q r : ℚ}, 0 < q → IsRounding digits q r → 0 < r := by
    intro q r hq h
    have hle : ∃ a : ℤ, 10 ^ a ≤ q := by
      rcases h with ⟨rfl, -⟩ | ⟨a, -, hle, -⟩
      · exact absurd hq (lt_irrefl 0)
      · exact ⟨a, by rwa [abs_of_pos hq] at hle⟩
    obtain ⟨a, hle⟩ := hle
    exact (ten_zpow_pos a).trans_le (h.ten_zpow_le_of_le hd hle)
  rcases lt_trichotomy q 0 with hq | rfl | hq
  · have hr := hpos (neg_pos.mpr hq) h.neg
    rw [sign_neg hq, sign_neg (neg_pos.mp hr)]
  · rw [h.unique (.inl ⟨rfl, rfl⟩)]
  · rw [sign_pos hq, sign_pos (hpos hq h)]

theorem carry {digits : ℕ} (hd : 0 < digits) {e : ℤ} {q : ℚ}
    (hle : 10 ^ e - 10 ^ (e - digits) / 2 ≤ q) (hlt : q < 10 ^ e) :
    IsRounding digits q (10 ^ e) := by
  have hpow := ten_zpow_eq_mul (show e - digits ≤ e by omega)
  have hunit : (10 : ℚ) ^ (e - digits) ≤ 10 ^ (e - 1) := ten_zpow_le.mpr (by omega)
  have hten := ten_zpow_eq_ten_mul e
  have hpos := ten_zpow_pos (e - digits)
  have hlow : 10 ^ (e - 1) ≤ q := by linarith
  have hq : |q| = q := abs_of_nonneg ((ten_zpow_pos _).le.trans hlow)
  have heven : Even (tens (e - (e - digits)).toNat : ℤ) := by
    rw [show (e - (e - digits)).toNat = digits by omega, Int.even_coe_nat, tens_eq_pow]
    exact (Nat.even_pow.mpr ⟨by decide, hd.ne'⟩)
  refine .inr ⟨e - 1, (tens (e - (e - digits)).toNat : ℤ), ?_, ?_, ⟨?_, fun _ => heven⟩, ?_⟩
  · rwa [hq]
  · rwa [hq, sub_add_cancel]
  · rw [sub_add_cancel, abs_le, Int.cast_natCast]
    rw [hpow] at hle hlt
    have h1 := (div_lt_iff₀ hpos).mpr hlt
    have h2 : (tens (e - (e - digits)).toNat : ℚ) - 1 / 2 ≤ q / 10 ^ (e - digits) := by
      rw [le_div_iff₀ hpos]
      linarith
    exact ⟨by linarith, by linarith⟩
  · rw [sub_add_cancel, Int.cast_natCast, hpow]

theorem abs_sub_le {digits : ℕ} {e : ℤ} {q r : ℚ} (h : IsRounding digits q r)
    (hlt : |q| < 10 ^ e) : |q - r| ≤ 10 ^ (e - digits) / 2 := by
  rcases h with ⟨rfl, rfl⟩ | ⟨a, n, hle, -, hn, rfl⟩
  · rw [sub_zero, abs_zero]
    exact (half_pos (ten_zpow_pos _)).le
  have hae : a < e := ten_zpow_lt.mp (hle.trans_lt hlt)
  have hunit : (10 : ℚ) ^ (a + 1 - (digits : ℤ)) ≤ 10 ^ (e - (digits : ℤ)) :=
    ten_zpow_le.mpr (by omega)
  have hpos := ten_zpow_pos (a + 1 - digits)
  rw [show q - n * 10 ^ (a + 1 - (digits : ℤ)) =
      (q / 10 ^ (a + 1 - (digits : ℤ)) - n) * 10 ^ (a + 1 - (digits : ℤ)) by
    rw [sub_mul, div_mul_cancel₀ _ hpos.ne'], abs_mul, abs_of_pos hpos]
  linarith [mul_le_mul_of_nonneg_right hn.near hpos.le]

theorem abs_sub_le_mul {digits : ℕ} {q r : ℚ} (h : IsRounding digits q r) :
    |q - r| ≤ |q| * (10 ^ (1 - (digits : ℤ)) / 2) := by
  rcases h with ⟨rfl, rfl⟩ | ⟨a, n, hle, hlt, hn, rfl⟩
  · simp
  refine (abs_sub_le (.inr ⟨a, n, hle, hlt, hn, rfl⟩) hlt).trans ?_
  rw [show a + 1 - (digits : ℤ) = a + (1 - digits) by ring, ten_zpow_add, mul_div_assoc]
  exact mul_le_mul_of_nonneg_right hle (half_pos (ten_zpow_pos _)).le

theorem eq_ten_zpow_iff {digits : ℕ} (hd : 0 < digits) {e : ℤ} {q r : ℚ}
    (h : IsRounding digits q r) (hlt : |q| < 10 ^ e) :
    |r| = 10 ^ e ↔ 10 ^ e - 10 ^ (e - digits) / 2 ≤ |q| := by
  constructor
  · intro hr
    rcases h with ⟨-, rfl⟩ | ⟨a, n, hle, hlt', hn, rfl⟩
    · exact absurd (abs_zero.symm.trans hr) (ten_zpow_pos e).ne
    obtain rfl : e = a + 1 := by
      have h1 := ten_zpow_lt.mp (hle.trans_lt hlt)
      have h2 := abs_le_ten_zpow (.inr ⟨a, n, hle, hlt', hn, rfl⟩) hlt'
      have h3 := ten_zpow_le.mp (hr.symm.trans_le h2)
      omega
    have hnear := abs_sub_le (.inr ⟨a, n, hle, hlt', hn, rfl⟩) hlt'
    have htriangle := abs_sub_abs_le_abs_sub ((n : ℚ) * 10 ^ (a + 1 - (digits : ℤ))) q
    rw [abs_sub_comm] at htriangle
    linarith
  · intro hle
    exact h.abs.unique (carry hd hle hlt)

end IsRounding

/-! ### Numbers between two neighbours of a grid -/

/-- `q` lies strictly between two neighbouring multiples of `10 ^ s`. -/
structure Between (s k : ℤ) (q : ℚ) : Prop where
  left : k * 10 ^ s < q
  right : q < (k + 1) * 10 ^ s

namespace Between

open Decimal

variable {s d k : ℤ} {q r : ℚ}

theorem multiple_eq (h : s ≤ d) (m : ℤ) :
    (m : ℚ) * 10 ^ d = ((m * tens (d - s).toNat : ℤ) : ℚ) * 10 ^ s := by
  rw [ten_zpow_eq_mul h]
  push_cast
  ring

theorem le_left (hq : Between s k q) (h : s ≤ d) {m : ℤ} (hm : (m : ℚ) * 10 ^ d ≤ q) :
    (m : ℚ) * 10 ^ d ≤ k * 10 ^ s := by
  rw [multiple_eq h] at hm ⊢
  generalize m * (tens (d - s).toNat : ℤ) = n at *
  have hlt := lt_of_mul_lt_mul_right (hm.trans_lt hq.right) (ten_zpow_pos s).le
  have hle : n ≤ k := by
    have : n < k + 1 := by exact_mod_cast hlt
    omega
  refine mul_le_mul_of_nonneg_right ?_ (ten_zpow_pos s).le
  exact_mod_cast hle

theorem right_le (hq : Between s k q) (h : s ≤ d) {m : ℤ} (hm : q ≤ (m : ℚ) * 10 ^ d) :
    (k + 1) * 10 ^ s ≤ (m : ℚ) * 10 ^ d := by
  rw [multiple_eq h] at hm ⊢
  generalize m * (tens (d - s).toNat : ℤ) = n at *
  have hlt := lt_of_mul_lt_mul_right (hq.left.trans_le hm) (ten_zpow_pos s).le
  have hle : k + 1 ≤ n := by
    have : k < n := by exact_mod_cast hlt
    omega
  refine mul_le_mul_of_nonneg_right ?_ (ten_zpow_pos s).le
  exact_mod_cast hle

theorem lt_of_le (hq : Between s k q) (hr : Between s k r) (h : s ≤ d) {m : ℤ}
    (hm : (m : ℚ) * 10 ^ d ≤ q) : (m : ℚ) * 10 ^ d < r :=
  (hq.le_left h hm).trans_lt hr.left

theorem lt_of_ge (hq : Between s k q) (hr : Between s k r) (h : s ≤ d) {m : ℤ}
    (hm : q ≤ (m : ℚ) * 10 ^ d) : r < (m : ℚ) * 10 ^ d :=
  hr.right.trans_le (hq.right_le h hm)

theorem ten_zpow_le_abs (hq : Between s k q) (hr : Between s k r) (h : s ≤ d) (hd : 10 ^ d ≤ |q|) :
    10 ^ d ≤ |r| := by
  rcases le_abs.mp hd with hd | hd
  · have hlt := hq.lt_of_le hr h (show ((1 : ℤ) : ℚ) * 10 ^ d ≤ q by push_cast; linarith)
    exact le_trans (by push_cast at hlt; linarith) (le_abs_self r)
  · have hlt := hq.lt_of_ge hr h (show q ≤ ((-1 : ℤ) : ℚ) * 10 ^ d by push_cast; linarith)
    exact le_trans (by push_cast at hlt; linarith) (neg_le_abs r)

theorem abs_lt_ten_zpow (hq : Between s k q) (hr : Between s k r) (h : s ≤ d) (hd : |q| < 10 ^ d) :
    |r| < 10 ^ d := by
  obtain ⟨hl, hu⟩ := abs_lt.mp hd
  have h1 := hq.lt_of_ge hr h (show q ≤ ((1 : ℤ) : ℚ) * 10 ^ d by push_cast; linarith)
  have h2 := hq.lt_of_le hr h (show ((-1 : ℤ) : ℚ) * 10 ^ d ≤ q by push_cast; linarith)
  push_cast at h1 h2
  exact abs_lt.mpr ⟨by linarith, by linarith⟩

end Between

namespace IsRounding

open Decimal

/-- On a grid finer than the last digit kept no midpoint lies strictly between two neighbours:
halfway between two numbers that can be kept lies a multiple of one power of ten less. -/
theorem exists_midpoints {digits : ℕ} {s k a : ℤ} {q r : ℚ} (h : IsRounding digits q r)
    (hq : Between s k q) (ha : 10 ^ a ≤ |q|) (hs : s ≤ a - digits) :
    ∃ b n : ℤ, s ≤ b - digits ∧ 10 ^ b ≤ |q| ∧ |q| < 10 ^ (b + 1) ∧
      r = n * 10 ^ (b + 1 - digits) ∧
      ((n : ℚ) - 1 / 2) * 10 ^ (b + 1 - (digits : ℤ)) ≤ k * 10 ^ s ∧
      (k + 1) * 10 ^ s ≤ ((n : ℚ) + 1 / 2) * 10 ^ (b + 1 - (digits : ℤ)) := by
  rcases h with ⟨h0, -⟩ | ⟨b, n, hle, hlt, hn, hr⟩
  · exact absurd h0 (ne_zero_of_le ha)
  have hab : a ≤ b := by
    have := ten_zpow_lt.mp (ha.trans_lt hlt)
    omega
  have hpos : (0 : ℚ) < 10 ^ (b + 1 - digits) := ten_zpow_pos _
  have hmid : ∀ m : ℤ, (((10 * n + m : ℤ) : ℚ) * 10 ^ (b - (digits : ℤ))
      = (n + m / 10) * 10 ^ (b + 1 - digits)) := by
    intro m
    rw [ten_zpow_eq_ten_mul (b + 1 - digits), show b + 1 - (digits : ℤ) - 1 = b - digits by ring]
    push_cast
    ring
  obtain ⟨hl, hu⟩ := abs_le.mp hn.near
  have hlow := hq.le_left (d := b - digits) (by omega) (m := 10 * n + (-5)) (by
    rw [hmid, ← le_div_iff₀ hpos]
    push_cast
    linarith)
  have hupp := hq.right_le (d := b - digits) (by omega) (m := 10 * n + 5) (by
    rw [hmid, ← div_le_iff₀ hpos]
    push_cast
    linarith)
  rw [hmid, show ((-5 : ℤ) : ℚ) / 10 = -(1 / 2) by norm_num, ← sub_eq_add_neg] at hlow
  rw [hmid, show ((5 : ℤ) : ℚ) / 10 = 1 / 2 by norm_num] at hupp
  exact ⟨b, n, by omega, hle, hlt, hr, hlow, hupp⟩

/-- Numbers between neighbours on a grid finer than the last digit kept round alike. -/
theorem of_between {digits : ℕ} {s k a : ℤ} {q q' r : ℚ} (h : IsRounding digits q r)
    (hq : Between s k q) (hq' : Between s k q') (ha : 10 ^ a ≤ |q|) (hs : s ≤ a - digits) :
    IsRounding digits q' r := by
  obtain ⟨b, n, hsb, hle, hlt, hr, hlow, hupp⟩ := h.exists_midpoints hq ha hs
  have hpos : (0 : ℚ) < 10 ^ (b + 1 - digits) := ten_zpow_pos _
  refine Or.inr ⟨b, n, hq.ten_zpow_le_abs hq' (by omega) hle,
    hq.abs_lt_ten_zpow hq' (by omega) hlt, IsNearestEven.of_lt ?_, hr⟩
  have hlow' := (lt_div_iff₀ hpos).mpr (hlow.trans_lt hq'.left)
  have hupp' := (div_lt_iff₀ hpos).mpr (hq'.right.trans_le hupp)
  exact abs_lt.mpr ⟨by linarith, by linarith⟩

end IsRounding

namespace Decimal

theorem round_of_length_le {x : Decimal} {digits : ℕ} (h : x.length ≤ digits) :
    x.round digits = x := by
  rw [round, if_pos (h.trans (le_max_left _ _))]

theorem round_isRounding (x : Decimal) {digits : ℕ} (hd : 0 < digits) :
    IsRounding digits x.value (x.round digits).value := by
  by_cases hx : x.value = 0
  · have hm := value_eq_zero.mp hx
    have hl : x.length ≤ digits := by
      rw [length, hm, Int.natAbs_zero, digitCount_zero]
      exact hd
    rw [round_of_length_le hl]
    exact Or.inl ⟨hx, hx⟩
  have hplace : x.adjusted + 1 - digits = x.exponent + x.length - digits := by rw [adjusted_eq]
  by_cases hl : x.length ≤ digits
  · have hval := value_eq_mul (x := x) (e := x.adjusted + 1 - digits) (by rw [hplace]; omega)
    rw [round_of_length_le hl]
    refine Or.inr ⟨x.adjusted, _, le_abs_value hx, abs_value_lt x, ?_, hval⟩
    rw [hval, mul_div_cancel_right₀ _ (ten_zpow_pos _).ne']
    exact IsNearestEven.of_int _
  · have hkept : max digits 1 = digits := max_eq_left hd
    have hremoved : x.adjusted + 1 - digits = x.exponent + ((x.length - digits : ℕ) : ℤ) := by
      rw [hplace]
      omega
    have hround : (x.round digits).value =
        ((if x.isNegative then -(halfEven x.mantissa.natAbs (tens (x.length - digits)) : ℤ)
          else halfEven x.mantissa.natAbs (tens (x.length - digits)) : ℤ) : ℚ)
          * 10 ^ (x.adjusted + 1 - digits) := by
      simp only [round, hkept, if_neg hl]
      rw [value_ofScaled, hremoved]
    refine Or.inr ⟨x.adjusted, _, le_abs_value hx, abs_value_lt x, ?_, hround⟩
    -- the digits removed are those behind the point of the quotient
    have hn := isNearestEven_halfEven x.mantissa.natAbs (tens_pos (x.length - digits))
    have hm : x.value / 10 ^ (x.adjusted + 1 - digits) = x.mantissa / tens (x.length - digits) := by
      rw [value, hremoved, ten_zpow_add, zpow_natCast, cast_tens,
        mul_comm (x.mantissa : ℚ), mul_div_mul_left _ _ (ten_zpow_pos _).ne']
    rw [hm]
    split_ifs with hneg
    · have hlt : x.mantissa < 0 := of_decide_eq_true hneg
      have ha : ((x.mantissa.natAbs : ℕ) : ℚ) = -x.mantissa := by
        rw [Nat.cast_natAbs, abs_of_neg hlt, Int.cast_neg]
      have hneg := hn.neg
      rwa [ha, neg_div, neg_neg] at hneg
    · have hge : 0 ≤ x.mantissa := not_lt.mp fun h => hneg (decide_eq_true h)
      have ha : ((x.mantissa.natAbs : ℕ) : ℚ) = x.mantissa := by
        rw [Nat.cast_natAbs, abs_of_nonneg hge]
      rwa [ha] at hn

theorem round_neg (x : Decimal) {digits : ℕ} (hd : 0 < digits) :
    (-x).round digits = -x.round digits := by
  apply value_injective
  have hneg := (round_isRounding x hd).neg
  rw [← value_neg, ← value_neg] at hneg
  exact (round_isRounding (-x) hd).unique hneg

theorem adjusted_le_adjusted_round {x : Decimal} {digits : ℕ} (hd : 0 < digits)
    (hx : x.value ≠ 0) : x.adjusted ≤ (x.round digits).adjusted := by
  have hle := (round_isRounding x hd).ten_zpow_le_abs hd (le_abs_value hx)
  have hlt := ten_zpow_lt.mp (hle.trans_lt (abs_value_lt (x.round digits)))
  omega

/-! ### Digits that are left -/

theorem length_ofScaled_le {m : ℤ} (e : ℤ) {d : ℕ} (hd : 0 < d) (h : m.natAbs ≤ tens d) :
    (ofScaled m e).length ≤ d := by
  rcases Nat.lt_or_eq_of_le h with hlt | heq
  · refine (digitCount_le_iff hd).mpr (Nat.lt_of_le_of_lt ?_ hlt)
    by_cases hm : m = 0
    · simp [ofScaled, hm, zero]
    · rw [ofScaled, dif_neg hm]
      show (m.tdiv (tens (trailingZeros m.natAbs))).natAbs ≤ m.natAbs
      rw [Int.natAbs_tdiv]
      exact Nat.div_le_self _ _
  · -- the power of ten itself is left with one digit
    have hone : ∃ x : Decimal, x.value = m * 10 ^ e ∧ x.mantissa.natAbs = 1 := by
      rcases Int.natAbs_eq m with hm | hm
      · refine ⟨⟨1, d + e, Or.inr (by decide)⟩, ?_, rfl⟩
        rw [hm, heq, value, ten_zpow_add, zpow_natCast, tens_eq_pow]
        push_cast
        ring
      · refine ⟨⟨-1, d + e, Or.inr (by decide)⟩, ?_, rfl⟩
        rw [hm, heq, value, ten_zpow_add, zpow_natCast, tens_eq_pow]
        push_cast
        ring
    obtain ⟨x, hx, hx1⟩ := hone
    rw [value_injective ((value_ofScaled m e).trans hx.symm), length, hx1]
    exact (digitCount_le_iff hd).mpr (Nat.one_lt_pow hd.ne' (by decide))

theorem halfEven_le {n d k : ℕ} (h : n < d * k) : halfEven n d ≤ k := by
  have := Nat.div_lt_of_lt_mul h
  simp only [halfEven]
  split_ifs <;> omega

theorem length_round_le (x : Decimal) {digits : ℕ} (hd : 0 < digits) :
    (x.round digits).length ≤ digits := by
  by_cases hl : x.length ≤ digits
  · rwa [round_of_length_le hl]
  · have hkept : max digits 1 = digits := max_eq_left hd
    simp only [round, hkept, if_neg hl]
    apply length_ofScaled_le _ hd
    have hle : halfEven x.mantissa.natAbs (tens (x.length - digits)) ≤ tens digits := by
      apply halfEven_le
      rw [← tens_add, Nat.sub_add_cancel (by omega)]
      exact lt_tens_digitCount _
    split_ifs
    · rwa [Int.natAbs_neg, Int.natAbs_natCast]
    · rwa [Int.natAbs_natCast]

theorem round_round (x : Decimal) {digits : ℕ} (hd : 0 < digits) :
    (x.round digits).round digits = x.round digits :=
  round_of_length_le (length_round_le x hd)

/-! ### The range -/

theorem inRange_of_abs {x : Decimal} (hlt : |x.value| < 10 ^ (maxAdjusted + 1))
    (hle : x.value ≠ 0 → 10 ^ (-maxAdjusted) ≤ |x.value|) : x.InRange := by
  by_cases hx : x.value = 0
  · exact Or.inl (value_eq_zero.mp hx)
  · have h1 := ten_zpow_lt.mp ((le_abs_value hx).trans_lt hlt)
    have h2 := ten_zpow_lt.mp ((hle hx).trans_lt (abs_value_lt x))
    exact Or.inr ⟨by omega, by omega⟩

theorem bounded_of_abs {x : Decimal} (hlt : |x.value| < 10 ^ (maxAdjusted + 1))
    (hle : x.value ≠ 0 → 10 ^ (-maxAdjusted) ≤ |x.value|) : x.bounded? = some x := by
  rw [bounded?, if_pos (inRange_of_abs hlt hle)]

theorem InRange.bounds {x : Decimal} (h : x.InRange) (hx : x.value ≠ 0) :
    10 ^ (-maxAdjusted) ≤ |x.value| ∧ |x.value| < 10 ^ (maxAdjusted + 1) := by
  rcases h with hm | ⟨hlow, hhigh⟩
  · exact absurd (value_eq_zero.mpr hm) hx
  · exact ⟨(ten_zpow_le.mpr hlow).trans (le_abs_value hx),
      (abs_value_lt x).trans_le (ten_zpow_le.mpr (by omega))⟩

theorem InRange.abs_lt {x : Decimal} (h : x.InRange) : |x.value| < 10 ^ (maxAdjusted + 1) := by
  by_cases hx : x.value = 0
  · rw [hx, abs_zero]
    exact ten_zpow_pos _
  · exact (h.bounds hx).2

theorem bounded?_eq_some_iff {x y : Decimal} : x.bounded? = some y ↔
    |x.value| < 10 ^ (maxAdjusted + 1) ∧
      y.value = if |x.value| < 10 ^ (-maxAdjusted) then 0 else x.value := by
  by_cases hx : x.value = 0
  · have hr : x.InRange := Or.inl (value_eq_zero.mp hx)
    have hzero : y.value = 0 ↔ x = y := by rw [← hx, value_eq_iff, eq_comm]
    rw [bounded?, if_pos hr, Option.some_inj, hx, abs_zero, ite_self, hzero]
    exact (and_iff_right (ten_zpow_pos _)).symm
  by_cases hr : x.InRange
  · obtain ⟨hlow, hhigh⟩ := hr.bounds hx
    rw [bounded?, if_pos hr, Option.some_inj, if_neg (not_lt.mpr hlow), value_eq_iff, eq_comm]
    exact (and_iff_right hhigh).symm
  by_cases hhigh : maxAdjusted < x.adjusted
  · rw [bounded?, if_neg hr, if_pos hhigh]
    refine iff_of_false nofun fun h => ?_
    have := (adjusted_lt_iff hx).mpr h.1
    omega
  · have hlow : |x.value| < 10 ^ (-maxAdjusted) := (adjusted_lt_iff hx).mp <| by
      by_contra hlow
      exact hr (Or.inr ⟨not_lt.mp hlow, not_lt.mp hhigh⟩)
    rw [bounded?, if_neg hr, if_neg hhigh, if_pos hlow, Option.some_inj, ← value_eq_iff, value_zero,
      eq_comm]
    refine (and_iff_right ((adjusted_lt_iff hx).mp ?_)).symm
    omega

theorem bounded_of_isRounding {digits : ℕ} (hd : 0 < digits) {q : ℚ} {r : Decimal}
    (h : IsRounding digits q r.value) (hlt : |q| < 10 ^ maxAdjusted)
    (hle : q ≠ 0 → 10 ^ (-maxAdjusted) ≤ |q|) : r.bounded? = some r := by
  apply bounded_of_abs
  · exact (h.abs_le_ten_zpow hlt).trans_lt (ten_zpow_lt.mpr (by omega))
  · intro hr
    refine h.ten_zpow_le_abs hd (hle ?_)
    rintro rfl
    exact hr (h.unique (Or.inl ⟨rfl, rfl⟩))

end Decimal

end DeskCalculator
