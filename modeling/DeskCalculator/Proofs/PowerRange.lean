import DeskCalculator.Proofs.Ratio
import DeskCalculator.Proofs.RepeatedSquaring

/-!
# The range of powers

A power with an exponent of 64 bits goes through the natural power of its base. A natural power is
refused just where it lies above the range, and is zero where it lies below, up to the errors of the
squares. A positive power therefore follows the rule of every operation. A negative one is the
inverse of the natural power, and is refused with it: where a number lies above the range, its
inverse lies below, and should be zero.
-/

set_option autoImplicit false

namespace DeskCalculator.Decimal

open DeskCalculator.Natural

variable {x y v : Decimal} {c : Context} {k : ℕ} {q : ℚ} {n : ℤ}

/-! ### Rounding far from the range -/

theorem bounded?_eq_none_iff : x.bounded? = none ↔ 10 ^ (maxAdjusted + 1) ≤ |x.value| := by
  rw [Option.eq_none_iff_forall_ne_some, ← not_lt]
  refine ⟨fun h hlt => ?_, fun h z hz => h (bounded?_eq_some_iff.mp hz).1⟩
  by_cases hlow : |x.value| < 10 ^ (-maxAdjusted)
  · exact h zero (bounded?_eq_some_iff.mpr ⟨hlt, by rw [if_pos hlow, value_zero]⟩)
  · exact h x (bounded?_eq_some_iff.mpr ⟨hlt, by rw [if_neg hlow]⟩)

theorem abs_le_of_isRounding {r : ℚ} (h : IsRounding c.digits q r) : |r| ≤ 3 / 2 * |q| := by
  have hnear := h.abs_sub_le_mul
  have hu : c.roundoff ≤ 1 / 2 := c.roundoff_le
  rw [abs_sub_comm] at hnear
  have htriangle := abs_sub_abs_le_abs_sub r q
  have hpart : |q| * (10 ^ (1 - (c.digits : ℤ)) / 2) ≤ |q| * (1 / 2) :=
    mul_le_mul_of_nonneg_left hu (abs_nonneg q)
  linarith

theorem Rounds.eq_zero_of_lt {o : Option Decimal} (h : Rounds c q o)
    (hq : 3 * |q| < 2 * 10 ^ (-maxAdjusted)) : o = some zero := by
  obtain ⟨r, -, hr, rfl⟩ := h
  have hle := abs_le_of_isRounding hr
  have hlow : |r.value| < 10 ^ (-maxAdjusted) := by linarith
  have hlt : |r.value| < 10 ^ (maxAdjusted + 1) := hlow.trans (ten_zpow_lt.mpr (by decide))
  exact bounded?_eq_some_iff.mpr ⟨hlt, by rw [if_pos hlow, value_zero]⟩

theorem Rounds.le_of_eq_none (h : Rounds c q none) : 6 * 10 ^ maxAdjusted ≤ |q| := by
  obtain ⟨r, -, hr, hnone⟩ := h
  have hle := abs_le_of_isRounding hr
  have hhigh := bounded?_eq_none_iff.mp hnone.symm
  have hten := ten_zpow_eq_ten_mul (maxAdjusted + 1)
  rw [add_sub_cancel_right] at hten
  have hpos := ten_zpow_pos maxAdjusted
  linarith

theorem exists_rounds_div (hx : x.value ≠ 0) (hy : y.value ≠ 0) (hc : c.digits < UInt32.size) :
    ∃ q, Rounds c q (x.div y c) ∧ |q| ≤ |x.value / y.value| := by
  by_cases hshift : c.digits + 2 + y.length - x.length < UInt32.size
  · exact ⟨_, rounds_div x hy hshift, le_refl _⟩
  · obtain ⟨m, e, heq, hle⟩ := exists_finish_of_longPower hx hy hc (not_lt.mp hshift)
    refine ⟨m * 10 ^ e, heq ▸ rounds_finish m e, hle.trans ?_⟩
    have hone : (10 : ℚ) ^ (-(c.digits : ℤ) - 1) ≤ 10 ^ (-1 : ℤ) := ten_zpow_le.mpr (by omega)
    refine mul_le_of_le_one_right (abs_nonneg _) ?_
    norm_num at hone ⊢
    linarith

/-! ### Natural powers -/

/-- The part of itself by which a natural power can be off: none up to the exact ones. -/
def powerSlack (c : Context) (k : ℕ) : ℚ :=
  if k ≤ maxExactPower then 0 else 10 ^ (-(c.digits : ℤ)) / 1000

theorem powerSlack_bounds (c : Context) (k : ℕ) :
    0 ≤ powerSlack c k ∧ powerSlack c k ≤ 1 / 1000 := by
  have hpos := ten_zpow_pos (-(c.digits : ℤ))
  have hone : (10 : ℚ) ^ (-(c.digits : ℤ)) ≤ 1 := zpow_le_one_of_nonpos₀ (by norm_num) (by omega)
  unfold powerSlack
  split
  · norm_num
  · constructor <;> linarith

theorem settles_squareAndMultiply (c : Context) (m : ℕ) {base acc : Decimal} (h : Settled c acc) :
    Settles c (squareAndMultiply c m base acc) := by
  induction m using Nat.strongRecOn generalizing base acc with
  | ind m ih =>
    rw [squareAndMultiply_eq]
    refine settles_ite h.some fun z hz => ?_
    obtain ⟨acc', hacc, hz⟩ := Option.bind_eq_some_iff.mp hz
    have hacc' : Settled c acc' := settles_ite (settles_mul _ _) h.some acc' hacc
    by_cases hhalf : m / 2 = 0
    · rw [if_pos hhalf] at hz
      exact hacc'.some z hz
    · rw [if_neg hhalf] at hz
      obtain ⟨square, -, hz⟩ := Option.bind_eq_some_iff.mp hz
      exact ih (m / 2) (by omega) hacc' z hz

theorem one_sub_powerSlack_le (hk : maxExactPower < k) (c : Context) :
    1 - powerSlack c k ≤ (1 - (powerContext c k).roundoff) ^ (k + 1) := by
  have hsum := mul_roundoff_le c k
  have hu := (powerContext c k).roundoff_nonneg
  have hk1 : (1 : ℚ) ≤ k := by exact_mod_cast (by omega : 1 ≤ k)
  have htail : (10 : ℚ) ^ (-(c.digits : ℤ) - 9) = 10 ^ (-(c.digits : ℤ)) / 1000000000 := by
    rw [sub_eq_add_neg, ten_zpow_add]
    norm_num [div_eq_mul_inv]
  have hpos := ten_zpow_pos (-(c.digits : ℤ))
  have hle : ((k + 1 : ℕ) : ℚ) * (powerContext c k).roundoff ≤ powerSlack c k := by
    rw [powerSlack, if_neg (not_le.mpr hk)]
    push_cast
    rw [htail] at hsum
    nlinarith
  have hbernoulli := one_add_mul_le_pow (a := -(powerContext c k).roundoff)
    (by linarith [(powerContext c k).roundoff_le]) (k + 1)
  rw [← sub_eq_add_neg] at hbernoulli
  linarith

theorem abs_pow_le_of_le {a : ℚ} {i : ℕ} (hi : i ≤ k) (ha : 1 < |a ^ i|) : |a ^ i| ≤ |a ^ k| := by
  rw [abs_pow] at ha ⊢
  rw [abs_pow]
  have hone : 1 ≤ |a| := by
    by_contra hlt
    exact absurd (pow_le_one₀ (abs_nonneg a) (not_le.mp hlt).le) (not_le.mpr ha)
  exact pow_le_pow_right₀ hone hi

theorem abs_pow_le_of_lt_one {a : ℚ} {i : ℕ} (hi : i ≤ k) (ha : |a ^ i| < 1) :
    |a ^ k| ≤ |a ^ i| := by
  rw [abs_pow] at ha ⊢
  rw [abs_pow]
  have hone : |a| ≤ 1 := by
    by_contra hlt
    exact absurd (one_le_pow₀ (not_le.mp hlt).le) (not_le.mpr ha)
  exact pow_le_pow_of_le_one (abs_nonneg a) hone hi

theorem naturalPower_cases (hx : x.value ≠ 0) (k : ℕ) (c : Context) :
    x.naturalPower k c = none ∧
      10 ^ (maxAdjusted + 1) * (1 - powerSlack c k) ≤ |x.value ^ k| ∨
    x.naturalPower k c = some zero ∧
      |x.value ^ k| * (1 - powerSlack c k) < 10 ^ (-maxAdjusted) ∨
    ∃ p : Decimal, x.naturalPower k c = some p ∧ Held p.value ∧
      |p.value - x.value ^ k| ≤ powerSlack c k * |x.value ^ k| := by
  obtain ⟨hslack0, hslack1⟩ := powerSlack_bounds c k
  by_cases hk : k ≤ maxExactPower
  · obtain ⟨p, hp, hpv⟩ := x.naturalPower_eq hk c
    rw [powerSlack, if_pos hk, sub_zero, mul_one, mul_one, zero_mul, hp, ← hpv]
    by_cases hheld : Held p.value
    · have hp0 : p.value ≠ 0 := hpv ▸ pow_ne_zero k hx
      refine .inr (.inr ⟨p, bounded_of_abs hheld.2 fun _ => hheld.1, hheld, ?_⟩)
      rw [sub_self, abs_zero]
    · rw [bounded?_of_not_held hheld]
      by_cases hlt : |p.value| < 10 ^ (maxAdjusted + 1)
      · refine .inr (.inl ⟨if_pos hlt, ?_⟩)
        exact not_le.mp fun hle => hheld ⟨hle, hlt⟩
      · exact .inl ⟨if_neg hlt, not_lt.mp hlt⟩
  have hk := not_le.mp hk
  have hone := one_sub_powerSlack_le hk c
  have hu := (powerContext c k).roundoff_nonneg
  have hu1 := (powerContext c k).roundoff_lt_one
  rcases naturalPower_tracks hx hk c with ⟨hnone, i, hi, hover⟩ | ⟨p, hp, htracks⟩
  · have hlarge : (10 : ℚ) ^ (maxAdjusted + 1) * (1 - powerSlack c k) ≤ |x.value ^ i| :=
      (mul_le_mul_of_nonneg_left hone (ten_zpow_pos _).le).trans hover
    have hten : (10 : ℚ) ^ (1 : ℤ) ≤ 10 ^ (maxAdjusted + 1) := ten_zpow_le.mpr (by decide)
    rw [zpow_one] at hten
    exact .inl ⟨hnone, hlarge.trans (abs_pow_le_of_le hi (by nlinarith))⟩
  · have hsettled : Settled (powerContext c k) p := by
      rw [naturalPower, if_neg (not_le.mpr hk)] at hp
      exact settles_squareAndMultiply _ k settled_one p hp
    rcases htracks with hdrifts | ⟨hzero, i, hi, hvanish⟩
    · have hp0 := hdrifts.ne_zero hu1 (pow_ne_zero k hx)
      refine .inr (.inr ⟨p, hp, hsettled.inRange.bounds hp0, ?_⟩)
      rw [powerSlack, if_neg (not_le.mpr hk)]
      exact abs_sub_le_of_drifts hdrifts
    · obtain rfl : p = zero := value_injective (hzero.trans value_zero.symm)
      have hpow : (1 - (powerContext c k).roundoff) ^ (k + 1) ≤
          (1 - (powerContext c k).roundoff) ^ k :=
        pow_le_pow_of_le_one (by linarith) (by linarith) (Nat.le_succ k)
      have hsmall : |x.value ^ i| * (1 - powerSlack c k) < 10 ^ (-maxAdjusted) :=
        (mul_le_mul_of_nonneg_left (hone.trans hpow) (abs_nonneg _)).trans_lt hvanish
      have htenth : (10 : ℚ) ^ (-maxAdjusted) ≤ 1 / 10 := by
        rw [show (1 : ℚ) / 10 = 10 ^ (-1 : ℤ) by norm_num]
        exact ten_zpow_le.mpr (by decide)
      have hle := abs_pow_le_of_lt_one hi (by nlinarith [abs_nonneg (x.value ^ i)])
      exact .inr (.inl ⟨hp, (mul_le_mul_of_nonneg_right hle (by linarith)).trans_lt hsmall⟩)

/-! ### Powers of 64 bits -/

section

variable (hx : x.value ≠ 0) (hy : y.value = n) (hword : FitsWord n)

include hx hy hword

theorem positive_pow_cases (hn : 0 < n) (c : Context) :
    x.pow y c = none ∧
      10 ^ (maxAdjusted + 1) * (1 - powerSlack c n.natAbs) ≤ |x.value ^ n| ∨
    x.pow y c = some zero ∨
    ∃ q, Rounds c q (x.pow y c) ∧ 10 ^ (-maxAdjusted) ≤ |q| ∧
      |q - x.value ^ n| ≤ powerSlack c n.natAbs * |x.value ^ n| := by
  have hpow : x.value ^ n = x.value ^ n.natAbs := by
    rw [← zpow_natCast, Int.natAbs_of_nonneg hn.le]
  rw [pow_eq_integerPower hx hn.ne' hy hword, integerPower, hpow]
  rcases naturalPower_cases hx n.natAbs c with ⟨hp, hover⟩ | ⟨hp, -⟩ | ⟨p, hp, hheld, hnear⟩
  · rw [hp]
    exact .inl ⟨rfl, hover⟩
  · rw [hp]
    simp only
    rw [if_neg (not_lt.mpr hn.le), round_zero]
    exact .inr (.inl rfl)
  · rw [hp]
    simp only
    rw [if_neg (not_lt.mpr hn.le)]
    exact .inr (.inr ⟨p.value, rounds_round p, hheld.1, hnear⟩)

/-- A negative power is refused where the natural power lies above the range or below it, and rounds
the inverse of the natural power otherwise, or something smaller. -/
theorem negative_pow_cases (hn : n < 0) (hc : c.digits < UInt32.size) :
    x.pow y c = none ∧
      |x.value ^ n| * (1 - powerSlack c n.natAbs) ≤ 10 ^ (-(maxAdjusted + 1)) ∨
    x.pow y c = none ∧ 10 ^ maxAdjusted * (1 - powerSlack c n.natAbs) ≤ |x.value ^ n| ∨
    ∃ q, Rounds c q (x.pow y c) ∧ |q| ≤ 10 ^ maxAdjusted ∧
      |q| * (1 - powerSlack c n.natAbs) ≤ |x.value ^ n| ∧
      10 ^ (-(maxAdjusted + 1)) * (1 - powerSlack c n.natAbs) ≤ |x.value ^ n| := by
  obtain ⟨hslack0, hslack1⟩ := powerSlack_bounds c n.natAbs
  have hpow : |x.value ^ n| = |x.value ^ n.natAbs|⁻¹ := by
    rw [← abs_inv, ← zpow_natCast, Int.ofNat_natAbs_of_nonpos hn.le, zpow_neg, inv_inv]
  have hpos : 0 < |x.value ^ n.natAbs| := abs_pos.mpr (pow_ne_zero _ hx)
  have hten := ten_zpow_pos maxAdjusted
  have hten1 := ten_zpow_pos (maxAdjusted + 1)
  rw [pow_eq_integerPower hx hn.ne hy hword, integerPower, hpow, zpow_neg]
  rcases naturalPower_cases hx n.natAbs c with ⟨hp, hover⟩ | ⟨hp, hunder⟩ | ⟨p, hp, hheld, hnear⟩
  · rw [hp]
    refine .inl ⟨rfl, ?_⟩
    rw [inv_mul_le_iff₀ hpos, ← div_eq_mul_inv, le_div_iff₀ hten1, mul_comm]
    exact hover
  · rw [hp]
    simp only
    rw [if_pos hn]
    refine .inr (.inl ⟨rfl, ?_⟩)
    rw [zpow_neg, ← one_div, lt_div_iff₀ hten] at hunder
    rw [← one_div, le_div_iff₀ hpos]
    linarith
  · rw [hp]
    simp only
    rw [if_pos hn]
    have hp0 : p.value ≠ 0 := by
      intro hp0
      exact IsRounding.ne_zero_of_le hheld.1 hp0
    have hpp : 0 < |p.value| := abs_pos.mpr hp0
    have hone : one.value ≠ 0 := by
      rw [value_one]
      exact one_ne_zero
    obtain ⟨q, hq, hle⟩ := exists_rounds_div hone hp0 hc
    rw [value_one, one_div, abs_inv] at hle
    have htriangle := abs_sub_abs_le_abs_sub (x.value ^ n.natAbs) p.value
    rw [abs_sub_comm] at htriangle
    have hlow : |x.value ^ n.natAbs| * (1 - powerSlack c n.natAbs) ≤ |p.value| := by linarith
    refine .inr (.inr ⟨q, hq, hle.trans ?_, ?_, ?_⟩)
    · rw [inv_le_comm₀ hpp hten, ← zpow_neg]
      exact hheld.1
    · refine (mul_le_mul_of_nonneg_right hle (by linarith)).trans ?_
      rw [inv_mul_le_iff₀ hpp, ← div_eq_mul_inv, le_div_iff₀ hpos]
      linarith
    · rw [inv_mul_le_iff₀ hten1, ← div_eq_mul_inv, le_div_iff₀ hpos]
      linarith [hheld.2]

/-- What becomes of a power of 64 bits outside the range: it is refused only where the exact power
lies above it, or where a negative power lies below it by more than a digit, and there always. -/
theorem pow_range_of_fitsWord (hc : c.digits < UInt32.size) :
    (x.pow y c = none →
      10 ^ maxAdjusted ≤ |x.value ^ n| ∨
      n < 0 ∧ 10 ^ maxAdjusted * (1 - powerSlack c n.natAbs) ≤ |x.value ^ n| ∨
      n < 0 ∧ |x.value ^ n| * (1 - powerSlack c n.natAbs) ≤ 10 ^ (-(maxAdjusted + 1))) ∧
    (2 * |x.value ^ n| < 10 ^ (-maxAdjusted) → x.pow y c = some zero ∨
      x.pow y c = none ∧ n < 0 ∧
        |x.value ^ n| * (1 - powerSlack c n.natAbs) ≤ 10 ^ (-(maxAdjusted + 1))) ∧
    (n < 0 → |x.value ^ n| < 10 ^ (-(maxAdjusted + 1)) * (1 - powerSlack c n.natAbs) →
      x.pow y c = none) := by
  obtain ⟨hslack0, hslack1⟩ := powerSlack_bounds c n.natAbs
  have hten := ten_zpow_eq_ten_mul (maxAdjusted + 1)
  rw [add_sub_cancel_right] at hten
  have hpos := ten_zpow_pos maxAdjusted
  have hwide : (10 : ℚ) ^ (-maxAdjusted) < 10 ^ maxAdjusted := ten_zpow_lt.mpr (by decide)
  have hq := abs_nonneg (x.value ^ n)
  rcases lt_trichotomy n 0 with hn | rfl | hn
  · have hdigit : (10 : ℚ) ^ (-(maxAdjusted + 1)) < 10 ^ maxAdjusted := ten_zpow_lt.mpr (by decide)
    rcases negative_pow_cases hx hy hword hn hc with ⟨hnone, hbelow⟩ | ⟨hnone, habove⟩ |
      ⟨q, hrounds, hhigh, hle, hheld⟩
    · exact ⟨fun _ => .inr (.inr ⟨hn, hbelow⟩), fun _ => .inr ⟨hnone, hn, hbelow⟩, fun _ _ => hnone⟩
    · refine ⟨fun _ => .inr (.inl ⟨hn, habove⟩), fun hsmall => ?_, fun _ _ => hnone⟩
      nlinarith
    · refine ⟨fun hnone => ?_, fun hsmall => .inl (hrounds.eq_zero_of_lt ?_), fun _ hsmall => ?_⟩
      · have := Rounds.le_of_eq_none (hnone ▸ hrounds)
        linarith
      · nlinarith [abs_nonneg q]
      · linarith
  · have hone : x.pow y c = some one := by
      rw [pow, if_pos (isZero_iff.mpr (by rw [hy, Int.cast_zero]))]
    rw [hone, zpow_zero, abs_one]
    refine ⟨fun h => absurd h (Option.some_ne_none _), fun hsmall => ?_, fun h => absurd h (lt_irrefl 0)⟩
    have hle : (10 : ℚ) ^ (-maxAdjusted) ≤ 1 := zpow_le_one_of_nonpos₀ (by norm_num) (by decide)
    linarith
  · rcases positive_pow_cases hx hy hword hn c with ⟨hnone, habove⟩ | hzero |
      ⟨q, hrounds, hlow, hnear⟩
    · refine ⟨fun _ => .inl (by nlinarith), fun hsmall => ?_, fun h => absurd h (not_lt.mpr hn.le)⟩
      nlinarith
    · rw [hzero]
      exact ⟨fun h => absurd h (Option.some_ne_none _), fun _ => .inl rfl, fun h => absurd h (not_lt.mpr hn.le)⟩
    · have htriangle := abs_sub_abs_le_abs_sub q (x.value ^ n)
      refine ⟨fun hnone => .inl ?_, fun hsmall => .inl (hrounds.eq_zero_of_lt ?_),
        fun h => absurd h (not_lt.mpr hn.le)⟩
      · have := Rounds.le_of_eq_none (hnone ▸ hrounds)
        nlinarith
      · nlinarith

end

end DeskCalculator.Decimal
