import DeskCalculator.Proofs.Accuracy
import DeskCalculator.Proofs.ExponentialSteps

/-!
# Powers by repeated squaring

Every square and every product is rounded, and the error of each is doubled by the squares after it.
A power computed this way is the exact one times no more factors near one than its exponent says,
and so is each number on the way for its own exponent. So a product that leaves the range shows that
a power of the base with an exponent no larger lies outside as well. The digits carried beyond those
kept are as many as the exponent has, and ten more, so all the factors together stay below the
digits that are kept.
-/

set_option autoImplicit false

namespace DeskCalculator

open DeskCalculator.Natural DeskCalculator.Decimal

/-! ### Many small relative errors -/

/-- `r` is `q` after `n` relative errors of at most `u`. -/
def Drifts (u : ℚ) (n : ℕ) (q r : ℚ) : Prop :=
  ∃ t, r = q * t ∧ (1 - u) ^ n ≤ t ∧ t * (1 - u) ^ n ≤ 1

namespace Drifts

variable {u q r s p : ℚ} {m n : ℕ}

theorem refl (u q : ℚ) : Drifts u 0 q q := ⟨1, by simp⟩

theorem mul (hu1 : u < 1) (h : Drifts u m q r) (h' : Drifts u n p s) :
    Drifts u (m + n) (q * p) (r * s) := by
  obtain ⟨t, rfl, hlow, hhigh⟩ := h
  obtain ⟨t', rfl, hlow', hhigh'⟩ := h'
  have hm : 0 < (1 - u) ^ m := pow_pos (by linarith) m
  have hn : 0 < (1 - u) ^ n := pow_pos (by linarith) n
  refine ⟨t * t', by ring, ?_, ?_⟩
  · rw [pow_add]
    exact mul_le_mul hlow hlow' hn.le (hm.le.trans hlow)
  · calc t * t' * (1 - u) ^ (m + n) = t * (1 - u) ^ m * (t' * (1 - u) ^ n) := by ring
      _ ≤ 1 * 1 := mul_le_mul hhigh hhigh' (mul_nonneg (hn.le.trans hlow') hn.le) zero_le_one
      _ = 1 := one_mul 1

theorem trans (hu1 : u < 1) (h : Drifts u m q r) (h' : Drifts u n r s) :
    Drifts u (m + n) q s := by
  obtain ⟨t, rfl, ht⟩ := h
  obtain ⟨t', rfl, ht'⟩ := h'
  have hprod := mul hu1 ⟨t, (one_mul t).symm, ht⟩ ⟨t', (one_mul t').symm, ht'⟩
  obtain ⟨t'', heq, ht''⟩ := hprod
  refine ⟨t'', ?_, ht''⟩
  rw [mul_assoc, heq, one_mul, one_mul]

theorem mono (hu : 0 ≤ u) (hu1 : u < 1) (hmn : m ≤ n) (h : Drifts u m q r) : Drifts u n q r := by
  obtain ⟨t, rfl, hlow, hhigh⟩ := h
  have hpow : (1 - u) ^ n ≤ (1 - u) ^ m := pow_le_pow_of_le_one (by linarith) (by linarith) hmn
  have ht : 0 ≤ t := (pow_nonneg (by linarith) m).trans hlow
  exact ⟨t, rfl, hpow.trans hlow, (mul_le_mul_of_nonneg_left hpow ht).trans hhigh⟩

theorem inv (hu1 : u < 1) (h : Drifts u n q r) : Drifts u n q⁻¹ r⁻¹ := by
  obtain ⟨t, rfl, hlow, hhigh⟩ := h
  have hpow : 0 < (1 - u) ^ n := pow_pos (by linarith) n
  have ht : 0 < t := hpow.trans_le hlow
  refine ⟨t⁻¹, mul_inv q t, ?_, ?_⟩
  · rwa [← one_div, le_div_iff₀ ht, mul_comm]
  · rw [inv_mul_le_iff₀ ht, mul_one]
    exact hlow

theorem of_abs_sub_le (hu : 0 ≤ u) (hu1 : u < 1) (h : |q - r| ≤ |q| * u) : Drifts u 1 q r := by
  rw [Drifts, pow_one]
  by_cases hq : q = 0
  · rw [hq, abs_zero, zero_mul] at h
    have hr : 0 - r = 0 := abs_eq_zero.mp (le_antisymm h (abs_nonneg _))
    exact ⟨1, by rw [hq]; linarith, by linarith, by linarith⟩
  have hpart : |1 - r / q| ≤ u := by
    rw [show 1 - r / q = (q - r) / q by field_simp, abs_div, div_le_iff₀ (abs_pos.mpr hq)]
    linarith
  obtain ⟨hlow, hhigh⟩ := abs_le.mp hpart
  refine ⟨r / q, (mul_div_cancel₀ r hq).symm, by linarith, ?_⟩
  calc r / q * (1 - u) ≤ (1 + u) * (1 - u) :=
        mul_le_mul_of_nonneg_right (by linarith) (by linarith)
    _ ≤ 1 := by nlinarith [sq_nonneg u]

theorem abs_bounds (hu1 : u < 1) (h : Drifts u n q r) :
    |q| * (1 - u) ^ n ≤ |r| ∧ |r| * (1 - u) ^ n ≤ |q| := by
  obtain ⟨t, rfl, hlow, hhigh⟩ := h
  have ht : 0 ≤ t := (pow_nonneg (by linarith) n).trans hlow
  rw [abs_mul, abs_of_nonneg ht]
  constructor
  · exact mul_le_mul_of_nonneg_left hlow (abs_nonneg q)
  · rw [mul_assoc]
    exact mul_le_of_le_one_right (abs_nonneg q) hhigh

theorem ne_zero (hu1 : u < 1) (h : Drifts u n q r) (hq : q ≠ 0) : r ≠ 0 := by
  have hlow := (h.abs_bounds hu1).1
  exact abs_pos.mp ((mul_pos (abs_pos.mpr hq) (pow_pos (by linarith) n)).trans_le hlow)

theorem abs_sub_le (hu : 0 ≤ u) (hu1 : u < 1) (hsum : n * u ≤ 1 / 2) (h : Drifts u n q r) :
    |r - q| ≤ 2 * (n * u) * |q| := by
  obtain ⟨t, rfl, hlow, hhigh⟩ := h
  have hbernoulli := one_add_mul_le_pow (show (-2 : ℚ) ≤ -u by linarith) n
  rw [← sub_eq_add_neg] at hbernoulli
  have ht : 0 ≤ t := (pow_nonneg (by linarith) n).trans hlow
  have hpart : |t - 1| ≤ 2 * (n * u) := by
    have hnu : 0 ≤ (n : ℚ) * u := mul_nonneg n.cast_nonneg hu
    have hprod : t * (1 - n * u) ≤ 1 :=
      (mul_le_mul_of_nonneg_left (by linarith) ht).trans hhigh
    refine abs_le.mpr ⟨by linarith, ?_⟩
    nlinarith
  rw [show q * t - q = (t - 1) * q by ring, abs_mul]
  exact mul_le_mul_of_nonneg_right hpart (abs_nonneg q)

end Drifts

def Context.roundoff (c : Context) : ℚ := 10 ^ (1 - (c.digits : ℤ)) / 2

theorem Context.roundoff_nonneg (c : Context) : 0 ≤ c.roundoff := (half_pos (ten_zpow_pos _)).le

theorem Context.roundoff_le (c : Context) : c.roundoff ≤ 1 / 2 := by
  have hdigits := c.positive
  have hpow : (10 : ℚ) ^ (1 - (c.digits : ℤ)) ≤ 10 ^ (0 : ℤ) := ten_zpow_le.mpr (by omega)
  rw [zpow_zero] at hpow
  rw [roundoff]
  linarith

theorem Context.roundoff_lt_one (c : Context) : c.roundoff < 1 := by
  linarith [c.roundoff_le]

theorem IsRounding.drifts {c : Context} {q r : ℚ} (h : IsRounding c.digits q r) :
    Drifts c.roundoff 1 q r :=
  .of_abs_sub_le c.roundoff_nonneg c.roundoff_lt_one h.abs_sub_le_mul

namespace Decimal

variable {x y z v : Decimal} {c : Context} {q : ℚ} {k : ℕ}

/-! ### One step -/

theorem Rounds.cases (hq : q ≠ 0) {o : Option Decimal} (h : Rounds c q o) :
    o = none ∧ 10 ^ (maxAdjusted + 1) * (1 - c.roundoff) ≤ |q| ∨
    o = some zero ∧ |q| < 10 ^ (-maxAdjusted) ∨
    ∃ r : Decimal, o = some r ∧ r.InRange ∧ IsRounding c.digits q r.value := by
  obtain ⟨r, -, hr, rfl⟩ := h
  rw [bounded?_eq_ite]
  have hr0 : r.value ≠ 0 := hr.drifts.ne_zero c.roundoff_lt_one hq
  split
  · next hhigh =>
    refine .inl ⟨rfl, ?_⟩
    have hle : (10 : ℚ) ^ (maxAdjusted + 1) ≤ |r.value| :=
      (ten_zpow_le.mpr (by omega)).trans (le_abs_value hr0)
    have hoff := (hr.drifts.abs_bounds c.roundoff_lt_one).2
    rw [pow_one] at hoff
    exact (mul_le_mul_of_nonneg_right hle (by linarith [c.roundoff_lt_one])).trans hoff
  · next hhigh =>
    split
    · next hlow =>
      refine .inr (.inl ⟨rfl, not_le.mp fun hle => ?_⟩)
      have := hr.ten_zpow_le_abs c.positive hle
      exact absurd ((adjusted_lt_iff hr0).mp hlow) (not_lt.mpr this)
    · next hlow =>
      exact .inr (.inr ⟨r, rfl, (inRange_iff_adjusted r).mpr ⟨by omega, by omega⟩, hr⟩)

def Overflows (c : Context) (x : ℚ) (k : ℕ) : Prop :=
  ∃ i ≤ k, 10 ^ (maxAdjusted + 1) * (1 - c.roundoff) ^ (k + 1) ≤ |x ^ i|

def Vanishes (c : Context) (x : ℚ) (k : ℕ) : Prop :=
  ∃ i ≤ k, |x ^ i| * (1 - c.roundoff) ^ k < 10 ^ (-maxAdjusted)

/-- `y` stands for `x ^ i` after `n` errors, or is zero because a power vanishes. -/
def Tracks (c : Context) (x : ℚ) (k n i : ℕ) (y : Decimal) : Prop :=
  Drifts c.roundoff n (x ^ i) y.value ∨ y.value = 0 ∧ Vanishes c x k

theorem Tracks.mul {x : ℚ} (hx : x ≠ 0) {m n i j : ℕ} (hy : Tracks c x k m i y)
    (hz : Tracks c x k n j z) (herrors : m + n ≤ k) (hexponent : i + j ≤ k) :
    y.mul z c = none ∧ Overflows c x k ∨
    ∃ r : Decimal, y.mul z c = some r ∧ Tracks c x k (m + n + 1) (i + j) r := by
  have hmul := rounds_mul (c := c) y z
  have hvanished : y.value * z.value = 0 → Vanishes c x k →
      ∃ r : Decimal, y.mul z c = some r ∧ Tracks c x k (m + n + 1) (i + j) r := by
    intro hzero hvanishes
    obtain ⟨r, -, hr, ho⟩ := hmul
    obtain rfl : r = zero := value_injective ((hr.unique (.inl ⟨hzero, rfl⟩)).trans value_zero.symm)
    exact ⟨zero, ho, .inr ⟨value_zero, hvanishes⟩⟩
  rcases hy with hy | ⟨hy, hvanishes⟩
  case inr => exact .inr (hvanished (by rw [hy, zero_mul]) hvanishes)
  rcases hz with hz | ⟨hz, hvanishes⟩
  case inr => exact .inr (hvanished (by rw [hz, mul_zero]) hvanishes)
  have hu := c.roundoff_nonneg
  have hu1 := c.roundoff_lt_one
  have hprod := hy.mul hu1 hz
  rw [← pow_add] at hprod
  obtain ⟨hlow, hhigh⟩ := (hprod.mono hu hu1 herrors).abs_bounds hu1
  have hpow : 0 ≤ (1 - c.roundoff) ^ k := pow_nonneg (by linarith) k
  rcases hmul.cases (hprod.ne_zero hu1 (pow_ne_zero _ hx)) with
    ⟨ho, habove⟩ | ⟨ho, hbelow⟩ | ⟨r, ho, -, hr⟩
  · refine .inl ⟨ho, i + j, hexponent, ?_⟩
    rw [pow_succ', ← mul_assoc]
    exact (mul_le_mul_of_nonneg_right habove hpow).trans hhigh
  · exact .inr ⟨zero, ho, .inr ⟨value_zero, i + j, hexponent, hlow.trans_lt hbelow⟩⟩
  · exact .inr ⟨r, ho, .inl (hprod.trans hu1 hr.drifts)⟩

/-! ### The run -/

/-- What the run preserves: the exponent that is reached and the one that is still to come make up
`k`, and there are no more errors than the exponent that is reached. -/
theorem squareAndMultiply_tracks {x : ℚ} (hx : x ≠ 0) (n : ℕ) {p a : ℕ} (hp : 0 < p)
    {base acc : Decimal} (hk : a + n * p ≤ k) (hbase : Tracks c x k (p - 1) p base)
    (hacc : Tracks c x k a a acc) :
    squareAndMultiply c n base acc = none ∧ Overflows c x k ∨
    ∃ v : Decimal, squareAndMultiply c n base acc = some v ∧
      Tracks c x k (a + n * p) (a + n * p) v := by
  induction n using Nat.strongRecOn generalizing p a base acc with
  | ind n ih =>
    rw [squareAndMultiply_eq]
    by_cases hn : n = 0
    · rw [if_pos hn, hn, zero_mul, add_zero]
      exact .inr ⟨acc, rfl, hacc⟩
    rw [if_neg hn]
    -- the lowest bit first
    have hfirst : ∃ b, b + n / 2 * (p + p) = a + n * p ∧
        ((if n % 2 = 1 then acc.mul base c else some acc) = none ∧ Overflows c x k ∨
          ∃ acc', (if n % 2 = 1 then acc.mul base c else some acc) = some acc' ∧
            Tracks c x k b b acc') := by
      have hsplit : n * p = n % 2 * p + n / 2 * (p + p) := by
        conv_lhs => rw [← Nat.mod_add_div n 2]
        ring
      by_cases hodd : n % 2 = 1
      · rw [if_pos hodd]
        rw [hodd, one_mul] at hsplit
        have hstep := hacc.mul hx hbase (by omega) (by omega)
        rw [show a + (p - 1) + 1 = a + p by omega] at hstep
        exact ⟨a + p, by omega, hstep⟩
      · rw [if_neg hodd]
        rw [show n % 2 = 0 by omega, zero_mul, zero_add] at hsplit
        exact ⟨a, by omega, .inr ⟨acc, rfl, hacc⟩⟩
    obtain ⟨b, hb, hfirst⟩ := hfirst
    rcases hfirst with ⟨hnone, hover⟩ | ⟨acc', hsome, hacc'⟩
    · rw [hnone]
      exact .inl ⟨rfl, hover⟩
    rw [hsome, Option.bind_some]
    by_cases hhalf : n / 2 = 0
    · rw [hhalf, zero_mul, add_zero] at hb
      rw [if_pos hhalf, ← hb]
      exact .inr ⟨acc', rfl, hacc'⟩
    rw [if_neg hhalf]
    -- then the square for the other bits
    have hle : p + p ≤ k := by
      have : p + p ≤ n / 2 * (p + p) := Nat.le_mul_of_pos_left _ (Nat.pos_of_ne_zero hhalf)
      omega
    rcases hbase.mul hx hbase (by omega) hle with ⟨hnone, hover⟩ | ⟨square, hsome, hsquare⟩
    · rw [hnone]
      exact .inl ⟨rfl, hover⟩
    rw [hsome, Option.bind_some, ← hb]
    rw [show p - 1 + (p - 1) + 1 = p + p - 1 by omega] at hsquare
    exact ih (n / 2) (by omega) (by omega) (by omega) hsquare hacc'

/-! ### Large powers -/

def powerContext (c : Context) (k : ℕ) : Context := c.widen (guardDigits + digitCount k)

theorem naturalPower_tracks (hx : x.value ≠ 0) (hk : maxExactPower < k) (c : Context) :
    x.naturalPower k c = none ∧ Overflows (powerContext c k) x.value k ∨
    ∃ p : Decimal, x.naturalPower k c = some p ∧ Tracks (powerContext c k) x.value k k k p := by
  have hbase : Tracks (powerContext c k) x.value k (1 - 1) 1 x := by
    refine .inl ?_
    rw [pow_one]
    exact .refl _ _
  have hone : Tracks (powerContext c k) x.value k 0 0 one := by
    refine .inl ?_
    rw [pow_zero, value_one]
    exact .refl _ _
  have hrun := squareAndMultiply_tracks hx k Nat.one_pos (by omega) hbase hone
  rw [naturalPower, if_neg (not_le.mpr hk)]
  rwa [mul_one, zero_add] at hrun

theorem mul_roundoff_le (c : Context) (k : ℕ) :
    k * (powerContext c k).roundoff ≤ 10 ^ (-(c.digits : ℤ) - 9) / 2 := by
  have hdigits : ((powerContext c k).digits : ℤ) = c.digits + 10 + digitCount k := by
    rw [powerContext, digits_widen, guardDigits]
    push_cast
    ring
  have hk : (k : ℚ) ≤ 10 ^ (digitCount k : ℤ) := by
    have hlt : (k : ℚ) ≤ tens (digitCount k) := by exact_mod_cast (lt_tens_digitCount k).le
    rwa [cast_tens_zpow] at hlt
  rw [Context.roundoff, hdigits, mul_div_assoc']
  refine div_le_div_of_nonneg_right ?_ zero_le_two
  calc (k : ℚ) * 10 ^ (1 - ((c.digits : ℤ) + 10 + digitCount k))
      ≤ 10 ^ (digitCount k : ℤ) * 10 ^ (1 - ((c.digits : ℤ) + 10 + digitCount k)) :=
        mul_le_mul_of_nonneg_right hk (ten_zpow_pos _).le
    _ = 10 ^ (-(c.digits : ℤ) - 9) := by
        rw [← ten_zpow_add]
        congr 1
        ring

theorem abs_sub_le_of_drifts {q r : ℚ} (h : Drifts (powerContext c k).roundoff k q r) :
    |r - q| ≤ 10 ^ (-(c.digits : ℤ)) / 1000 * |q| := by
  have hsum := mul_roundoff_le c k
  have htail : (10 : ℚ) ^ (-(c.digits : ℤ) - 9) = 10 ^ (-(c.digits : ℤ)) * 10 ^ (-9 : ℤ) :=
    ten_zpow_add _ (-9)
  have hone : (10 : ℚ) ^ (-(c.digits : ℤ)) ≤ 1 := zpow_le_one_of_nonpos₀ (by norm_num) (by omega)
  have hpos := ten_zpow_pos (-(c.digits : ℤ))
  rw [htail, show (10 : ℚ) ^ (-9 : ℤ) = 1 / 1000000000 by norm_num] at hsum
  refine (h.abs_sub_le (Context.roundoff_nonneg _) (Context.roundoff_lt_one _) (by linarith)).trans ?_
  exact mul_le_mul_of_nonneg_right (by linarith) (abs_nonneg q)

/-- A power of a large order is off from the exact one by six units, at most, in the first digit
that is not kept, unless it vanishes. The powers of ten that the quotient of a negative power asks
for have to be counted in 32 bits. -/
theorem abs_pow_sub_le {n : ℤ} (hx : x.value ≠ 0) (hy : y.value = n) (hword : FitsWord n)
    (hn : 1024 < n.natAbs)
    (hsize : n < 0 → ∀ p : Decimal, x.naturalPower n.natAbs c = some p →
      c.digits + 1 + p.length < UInt32.size)
    (h : x.pow y c = some v) (hv : v.value ≠ 0) :
    |v.value - x.value ^ n| ≤ 6 * 10 ^ (-(c.digits : ℤ)) * |x.value ^ n| := by
  rw [pow_eq_integerPower hx (by omega) hy hword, integerPower] at h
  rcases naturalPower_tracks hx hn c with ⟨hnone, -⟩ | ⟨p, hp, htracks⟩
  · rw [hnone] at h
    cases h
  rw [hp] at h
  dsimp only at h
  have hp0 : p.value ≠ 0 := by
    intro hp0
    obtain rfl : p = zero := value_injective (hp0.trans value_zero.symm)
    split at h
    · cases h
    · rw [round_zero] at h
      cases h
      exact hv value_zero
  have hdrifts := htracks.resolve_right fun hvanished => hp0 hvanished.1
  have hu1 := (powerContext c n.natAbs).roundoff_lt_one
  -- the errors stay far below the digits that are kept, and so do those of the inverse
  have hround : ∀ {q r : ℚ}, Drifts (powerContext c n.natAbs).roundoff n.natAbs q r →
      Rounds c r (some v) → |v.value - q| ≤ 6 * 10 ^ (-(c.digits : ℤ)) * |q| := by
    intro q r hdrift hrounds
    have hnear := (Rat.cast_le (K := ℝ)).mpr (abs_sub_le_of_drifts hdrift)
    push_cast at hnear
    refine (Rat.cast_le (K := ℝ)).mp ?_
    push_cast
    exact hrounds.abs_sub_le_of_near hnear hv
  split at h
  · next hneg =>
    have hpow : x.value ^ n = (x.value ^ n.natAbs)⁻¹ := by
      rw [← zpow_natCast, Int.ofNat_natAbs_of_nonpos hneg.le, zpow_neg, inv_inv]
    have hone := one.length_pos
    have hrounds := rounds_div (c := c) one hp0 (by have := hsize hneg p hp; omega)
    rw [h, value_one, one_div] at hrounds
    rw [hpow]
    exact hround (hdrifts.inv hu1) hrounds
  · next hpos =>
    have hpow : x.value ^ n = x.value ^ n.natAbs := by
      rw [← zpow_natCast, Int.natAbs_of_nonneg (not_lt.mp hpos)]
    rw [hpow]
    exact hround hdrifts (h ▸ rounds_round p)

theorem abs_pow_sub_le_negative :
    let c := Context.ofDigits 5
    let three : Decimal := ⟨3, 0, .inr (by decide)⟩
    let order : Decimal := ⟨-1025, 0, .inr (by decide)⟩
    let power : Decimal := ⟨89272, -494, .inr (by decide)⟩
    three.pow order c = some power ∧
      |power.value - three.value ^ (-1025 : ℤ)| ≤
        6 * 10 ^ (-5 : ℤ) * |three.value ^ (-1025 : ℤ)| := by
  intro c three order power
  have hpower : three.pow order c = some power := by decide +kernel
  refine ⟨hpower, abs_pow_sub_le (c := c) (y := order) (by decide +kernel) (by decide +kernel)
    (by decide +kernel) (by decide) (fun _ p hp => ?_) hpower (by decide +kernel)⟩
  have hlength : ∀ q ∈ three.naturalPower 1025 c, q.length ≤ 20 := by decide +kernel
  have := hlength p hp
  rw [show c.digits = 5 from rfl, UInt32.size]
  omega

end Decimal

end DeskCalculator
