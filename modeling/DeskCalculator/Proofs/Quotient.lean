import DeskCalculator.Decimal.Exponential
import DeskCalculator.Proofs.Order
import DeskCalculator.Proofs.Range

/-!
# Products, quotients and powers

Each of them rounds its exact value once and holds the result to the range. A quotient that
does not end is cut off, and a digit behind the cut stands for the rest: it rounds as the
quotient does, since the cut lies below the digits that are kept. A power is exact as far as a
bound on its order, and held to the range before it is rounded or inverted.
-/

set_option autoImplicit false

namespace DeskCalculator

open DeskCalculator.Natural DeskCalculator.Decimal

theorem between_witness (k : ℕ) (e : ℤ) : Between e k (witness k * 10 ^ (e - 1)) := by
  have hten := ten_zpow_eq_ten_mul e
  have hpos := ten_zpow_pos (e - 1)
  constructor <;> rw [hten, witness] <;> push_cast <;> nlinarith

theorem ten_zpow_le_witness {digits k : ℕ} (hk : tens digits ≤ k) (e : ℤ) :
    (10 : ℚ) ^ (digits + e) ≤ |(witness k : ℚ) * 10 ^ (e - 1)| := by
  have hle : ((tens digits : ℕ) : ℚ) ≤ k := by exact_mod_cast hk
  rw [cast_tens_zpow] at hle
  calc (10 : ℚ) ^ (digits + e) = 10 ^ (digits : ℤ) * 10 ^ e := ten_zpow_add _ _
    _ ≤ k * 10 ^ e := mul_le_mul_of_nonneg_right hle (ten_zpow_pos e).le
    _ ≤ witness k * 10 ^ (e - 1) := (between_witness k e).left.le
    _ ≤ |(witness k : ℚ) * 10 ^ (e - 1)| := le_abs_self _

theorem IsRounding.of_witness {digits k : ℕ} {e : ℤ} {q r : ℚ} (hk : tens digits ≤ k)
    (hq : Between e k q) (h : IsRounding digits (witness k * 10 ^ (e - 1)) r) :
    IsRounding digits q r :=
  h.of_between (between_witness k e) hq (ten_zpow_le_witness hk e) (by omega)

namespace Decimal

variable {x y : Decimal} {c : Context}

/-- The number is rounded once, and the rounded number held to the range. -/
def Rounds (c : Context) (q : ℚ) (o : Option Decimal) : Prop :=
  ∃ r : Decimal, r.length ≤ c.digits ∧ IsRounding c.digits q r.value ∧ o = r.bounded?

theorem rounds_round (x : Decimal) : Rounds c x.value (x.round c.digits).bounded? :=
  ⟨_, length_round_le x c.positive, round_isRounding x c.positive, rfl⟩

theorem rounds_finish (m e : ℤ) : Rounds c (m * 10 ^ e) (finish m e c) :=
  value_ofScaled m e ▸ rounds_round (ofScaled m e)

theorem rounds_settled (hx : x.InRange) (hl : x.length ≤ c.digits) :
    Rounds c x.value (some x) := by
  have h := rounds_round (c := c) x
  rwa [round_of_length_le hl, bounded?, if_pos hx] at h

theorem Rounds.unique {q : ℚ} {o o' : Option Decimal} (h : Rounds c q o) (h' : Rounds c q o') :
    o = o' := by
  obtain ⟨r, -, hr, rfl⟩ := h
  obtain ⟨s, -, hs, rfl⟩ := h'
  rw [value_injective (hr.unique hs)]

theorem value_one : one.value = 1 := by simp [value, one]

theorem rounds_zero : Rounds c 0 (some zero) :=
  value_zero ▸ rounds_settled (settled_zero (c := c)).inRange settled_zero.length_le

theorem round_zero (c : Context) : zero.round c.digits = zero :=
  round_of_length_le settled_zero.length_le

theorem rounds_mul (x y : Decimal) : Rounds c (x.value * y.value) (x.mul y c) := by
  have h : x.value * y.value =
      ((x.mantissa * y.mantissa : ℤ) : ℚ) * 10 ^ (x.exponent + y.exponent) := by
    rw [value, value, ten_zpow_add]
    push_cast
    ring
  rw [h]
  exact rounds_finish _ _

theorem inRange_iff_adjusted (x : Decimal) :
    x.InRange ↔ -maxAdjusted ≤ x.adjusted ∧ x.adjusted ≤ maxAdjusted := by
  refine or_iff_right_of_imp fun hm => ?_
  have hadj := x.adjusted_eq
  rw [exponent_eq_zero hm, length_eq_one hm] at hadj
  rw [show x.adjusted = 0 by omega]
  decide

theorem bounded?_eq_ite (x : Decimal) : x.bounded? =
    if maxAdjusted < x.adjusted then none
    else if x.adjusted < -maxAdjusted then some zero
    else some x := by
  by_cases hr : x.InRange
  · obtain ⟨hlow, hhigh⟩ := x.inRange_iff_adjusted.mp hr
    rw [bounded?, if_pos hr, if_neg (not_lt.mpr hhigh), if_neg (not_lt.mpr hlow)]
  · rw [bounded?, if_neg hr]
    by_cases hhigh : maxAdjusted < x.adjusted
    · rw [if_pos hhigh, if_pos hhigh]
    · have hlow : x.adjusted < -maxAdjusted := not_le.mp fun hle =>
        hr (x.inRange_iff_adjusted.mpr ⟨hle, not_lt.mp hhigh⟩)
      rw [if_neg hhigh, if_neg hhigh, if_pos hlow]

/-- The outcome of an operation whose exact value is `q`: the number is rounded once, half to even,
and there is nothing if the leading digit then stands above the range, and zero if it stands
below. -/
def RoundedOnce (c : Context) (q : ℚ) (o : Option Decimal) : Prop :=
  ∃ r : Decimal, IsRounding c.digits q r.value ∧
    o = if maxAdjusted < r.adjusted then none
      else if r.adjusted < -maxAdjusted then some zero
      else some r

theorem Rounds.roundedOnce {q : ℚ} {o : Option Decimal} (h : Rounds c q o) :
    RoundedOnce c q o := by
  obtain ⟨r, -, hr, rfl⟩ := h
  exact ⟨r, hr, r.bounded?_eq_ite⟩

/-! ### Quotients -/

theorem rounds_finish_of_sign {σ m : ℤ} (hσ : σ = 1 ∨ σ = -1) {e : ℤ} {q : ℚ}
    (h : ∀ r, IsRounding c.digits (m * 10 ^ e) r → IsRounding c.digits q r) :
    Rounds c (σ * q) (finish (σ * m) e c) := by
  obtain ⟨r, hl, hr, ho⟩ := rounds_finish (c := c) (σ * m) e
  refine ⟨r, hl, ?_, ho⟩
  rw [Int.cast_mul, mul_assoc] at hr
  rcases hσ with rfl | rfl
  · rw [Int.cast_one, one_mul] at hr ⊢
    exact h _ hr
  · rw [Int.cast_neg, Int.cast_one, neg_one_mul] at hr ⊢
    have hneg := (h _ (neg_neg ((m : ℚ) * 10 ^ e) ▸ hr.neg)).neg
    rwa [neg_neg] at hneg

def signFactor (x : Decimal) : ℤ := if x.isNegative then -1 else 1

theorem signFactor_eq (x : Decimal) : x.signFactor = 1 ∨ x.signFactor = -1 := by
  unfold signFactor
  split_ifs
  · exact .inr rfl
  · exact .inl rfl

theorem value_eq_signFactor_mul (x : Decimal) :
    x.value = x.signFactor * (x.mantissa.natAbs * 10 ^ x.exponent) := by
  rw [← abs_value, signFactor]
  push_cast
  exact x.sign_mul_abs_value.symm

theorem signFactor_mul (x y : Decimal) :
    x.signFactor * y.signFactor = if x.isNegative = y.isNegative then 1 else -1 := by
  unfold signFactor
  cases x.isNegative <;> cases y.isNegative <;> rfl

theorem value_div_value (hy : y.value ≠ 0) (shift : ℕ) :
    x.value / y.value = (x.signFactor * y.signFactor : ℤ) *
      (((x.mantissa.natAbs * tens shift : ℕ) : ℚ) / y.mantissa.natAbs *
        10 ^ (x.exponent - y.exponent - shift)) := by
  have hym : (y.mantissa.natAbs : ℚ) ≠ 0 := Nat.cast_ne_zero.mpr (natAbs_mantissa_pos hy).ne'
  have hsign : ((y.signFactor * y.signFactor : ℤ) : ℚ) = 1 := by
    rw [signFactor_mul, if_pos rfl, Int.cast_one]
  have hshift : (10 : ℚ) ^ x.exponent =
      10 ^ (x.exponent - y.exponent - shift) * 10 ^ y.exponent * tens shift := by
    rw [cast_tens_zpow, ← ten_zpow_add, ← ten_zpow_add]
    congr 1
    ring
  rw [div_eq_iff hy, value_eq_signFactor_mul x, value_eq_signFactor_mul y, hshift]
  push_cast at hsign ⊢
  field_simp
  rw [pow_two, hsign]
  ring

theorem between_div {n d : ℕ} (hd : 0 < d) (hrem : n % d ≠ 0) (e : ℤ) :
    Between e (n / d : ℕ) ((n : ℚ) / d * 10 ^ e) := by
  have hdq : (0 : ℚ) < d := by exact_mod_cast hd
  have hpos := ten_zpow_pos e
  constructor <;> refine mul_lt_mul_of_pos_right ?_ hpos
  · rw [lt_div_iff₀ hdq]
    exact_mod_cast lt_of_le_of_ne (Nat.div_mul_le_self n d) fun h =>
      hrem (Nat.mod_eq_zero_of_dvd (h ▸ Nat.dvd_mul_left d (n / d)))
  · rw [div_lt_iff₀ hdq]
    exact_mod_cast (Nat.lt_mul_div_succ n hd).trans_eq (Nat.mul_comm d _)

theorem tens_le_quotient (hx : x.mantissa.natAbs ≠ 0) (hy : 0 < y.mantissa.natAbs) (digits : ℕ) :
    tens digits ≤
      x.mantissa.natAbs * tens (digits + 2 + y.length - x.length) / y.mantissa.natAbs := by
  have hlx : 0 < x.length := x.length_pos
  rw [Nat.le_div_iff_mul_le hy]
  calc tens digits * y.mantissa.natAbs
      ≤ tens digits * tens y.length := Nat.mul_le_mul_left _ (lt_tens_digitCount _).le
    _ = tens (digits + y.length) := (tens_add _ _).symm
    _ ≤ tens (x.length - 1 + (digits + 2 + y.length - x.length)) := tens_le_tens (by omega)
    _ = tens (x.length - 1) * tens (digits + 2 + y.length - x.length) := tens_add _ _
    _ ≤ x.mantissa.natAbs * tens (digits + 2 + y.length - x.length) :=
        Nat.mul_le_mul_right _ (tens_digitCount_le hx)

theorem rounds_div (x : Decimal) (hy : y.value ≠ 0)
    (hshift : c.digits + 2 + y.length - x.length < UInt32.size) :
    Rounds c (x.value / y.value) (x.div y c) := by
  rw [div, if_neg (fun h => hy (isZero_iff.mp h))]
  split
  · next hx =>
    rw [isZero_iff.mp hx, zero_div]
    exact rounds_zero
  next hx =>
  have hx : x.mantissa.natAbs ≠ 0 := (natAbs_mantissa_pos fun h => hx (isZero_iff.mpr h)).ne'
  have hy' : 0 < y.mantissa.natAbs := natAbs_mantissa_pos hy
  have hsign : x.signFactor * y.signFactor = 1 ∨ x.signFactor * y.signFactor = -1 := by
    rw [signFactor_mul]
    split_ifs <;> simp
  have hlong := tens_le_quotient hx hy' c.digits
  rw [value_div_value hy (c.digits + 2 + y.length - x.length)]
  simp only [powerOfTen_eq _ hshift, ← signFactor_mul]
  generalize c.digits + 2 + y.length - x.length = shift at *
  generalize x.mantissa.natAbs * tens shift = n at *
  split
  · next hrem =>
    refine rounds_finish_of_sign hsign fun r hr => ?_
    rwa [Int.cast_natCast, Nat.cast_div (Nat.dvd_of_mod_eq_zero hrem) (by exact_mod_cast hy'.ne')]
      at hr
  · next hrem =>
    exact rounds_finish_of_sign hsign fun r => .of_witness hlong (between_div hy' hrem _)

/-! ### Powers -/

def Held (q : ℚ) : Prop := 10 ^ (-maxAdjusted) ≤ |q| ∧ |q| < 10 ^ (maxAdjusted + 1)

theorem naturalPower_eq (x : Decimal) {k : ℕ} (hk : k ≤ maxExactPower) (c : Context) :
    ∃ p : Decimal, x.naturalPower k c = p.bounded? ∧ p.value = x.value ^ k := by
  refine ⟨ofScaled (x.mantissa.pow k) (x.exponent * k), by rw [naturalPower, if_pos hk], ?_⟩
  rw [value_ofScaled, zpow_mul, zpow_natCast, value, mul_pow]
  exact congrArg (· * _) (Int.cast_pow x.mantissa k)

theorem bounded?_of_not_held (h : ¬Held x.value) :
    x.bounded? = if |x.value| < 10 ^ (maxAdjusted + 1) then some zero else none := by
  split
  · next hlt =>
    have hlow : |x.value| < 10 ^ (-maxAdjusted) := not_le.mp fun hle => h ⟨hle, hlt⟩
    exact bounded?_eq_some_iff.mpr ⟨hlt, by rw [if_pos hlow, value_zero]⟩
  · next hlt =>
    exact Option.eq_none_iff_forall_ne_some.mpr fun y hy => hlt (bounded?_eq_some_iff.mp hy).1

theorem pow_eq_integerPower (hx : x.value ≠ 0) {n : ℤ} (hn0 : n ≠ 0) (hy : y.value = n)
    (hn : FitsWord n) (c : Context) : x.pow y c = x.integerPower n c := by
  have hy0 : y.value ≠ 0 := by
    rw [hy]
    exact_mod_cast hn0
  rw [pow, if_neg (fun h => hy0 (isZero_iff.mp h)), if_neg (fun h => hx (isZero_iff.mp h)),
    toWord?_eq_some_iff.mpr ⟨hy, hn⟩]

theorem fitsWord_of_le_maxExactPower {n : ℤ} (hn : n.natAbs ≤ maxExactPower) : FitsWord n := by
  have hmax : maxExactPower = 1024 := rfl
  exact ⟨by omega, by omega⟩

theorem rounds_pow {n : ℤ} (hy : y.value = n) (hn : n.natAbs ≤ maxExactPower)
    (hheld : Held (x.value ^ n.natAbs))
    (hsize : n < 0 → ∀ p : Decimal, p.value = x.value ^ n.natAbs →
      c.digits + 1 + p.length < UInt32.size) :
    Rounds c (x.value ^ n) (x.pow y c) := by
  by_cases hn0 : n = 0
  · rw [hn0, zpow_zero, pow, if_pos (isZero_iff.mpr (by rw [hy, hn0, Int.cast_zero])), ← value_one]
    exact rounds_settled (settled_one (c := c)).inRange settled_one.length_le
  have hx : x.value ≠ 0 := by
    intro hx
    rw [hx, zero_pow (Int.natAbs_ne_zero.mpr hn0)] at hheld
    exact IsRounding.ne_zero_of_le hheld.1 rfl
  obtain ⟨p, hp, hpv⟩ := x.naturalPower_eq hn c
  have hpr : p.bounded? = some p := bounded_of_abs (hpv ▸ hheld.2) fun _ => hpv ▸ hheld.1
  rw [pow_eq_integerPower hx hn0 hy (fitsWord_of_le_maxExactPower hn), integerPower, hp, hpr]
  simp only
  split
  · next hneg =>
    have hshift : c.digits + 2 + p.length - one.length < UInt32.size := by
      have hone := one.length_pos
      have hlt := hsize hneg p hpv
      omega
    have hpow : x.value ^ n = one.value / p.value := by
      rw [value_one, hpv, ← zpow_natCast, Int.ofNat_natAbs_of_nonpos hneg.le, zpow_neg, one_div,
        inv_inv]
    rw [hpow]
    exact rounds_div one (hpv ▸ pow_ne_zero _ hx) hshift
  · next hpos =>
    have hpow : x.value ^ n = p.value := by
      rw [hpv, ← zpow_natCast, Int.natAbs_of_nonneg (not_lt.mp hpos)]
    rw [hpow]
    exact rounds_round p

theorem pow_of_not_held {n : ℤ} (hy : y.value = n) (hn : n.natAbs ≤ maxExactPower)
    (hheld : ¬Held (x.value ^ n.natAbs)) (c : Context) :
    x.pow y c =
      if |x.value ^ n.natAbs| < 10 ^ (maxAdjusted + 1) ∧ 0 ≤ n then some zero else none := by
  have hn0 : n ≠ 0 := by
    rintro rfl
    refine hheld ⟨?_, ?_⟩ <;> rw [Int.natAbs_zero, pow_zero, abs_one, ← zpow_zero 10]
    · exact ten_zpow_le.mpr (by decide)
    · exact ten_zpow_lt.mpr (by decide)
  by_cases hx : x.value = 0
  · have hy0 : y.value ≠ 0 := by
      rw [hy]
      exact_mod_cast hn0
    have hneg : y.isNegative = true ↔ ¬0 ≤ n := by
      rw [isNegative_iff, hy, not_le]
      exact_mod_cast Iff.rfl
    rw [pow, if_neg (fun h => hy0 (isZero_iff.mp h)), if_pos (isZero_iff.mpr hx), hx,
      zero_pow (Int.natAbs_ne_zero.mpr hn0), abs_zero]
    simp only [hneg, ten_zpow_pos, true_and, ite_not]
  obtain ⟨p, hp, hpv⟩ := x.naturalPower_eq hn c
  rw [← hpv] at hheld ⊢
  rw [pow_eq_integerPower hx hn0 hy (fitsWord_of_le_maxExactPower hn), integerPower, hp,
    bounded?_of_not_held hheld]
  have hround : (zero.round c.digits).bounded? = some zero := by
    rw [round_zero]
    rfl
  by_cases hlt : |p.value| < 10 ^ (maxAdjusted + 1)
  · rw [if_pos hlt]
    simp only [hlt, true_and, hround, ← not_lt, ite_not]
    rfl
  · simp only [hlt, false_and, if_false]

/-! ### All three -/

/-- Products, quotients and powers of a small order are their exact values rounded once. The powers
of ten that a quotient asks for have to be counted in 32 bits, and the natural power that a
power starts from has to be in the range. -/
theorem mul_div_pow_roundedOnce (c : Context) (x y : Decimal) :
    RoundedOnce c (x.value * y.value) (x.mul y c) ∧
    (y.value ≠ 0 → c.digits + 2 + y.length - x.length < UInt32.size →
      RoundedOnce c (x.value / y.value) (x.div y c)) ∧
    ∀ n : ℤ, y.value = n → n.natAbs ≤ 1024 → x.value ≠ 0 →
      ∀ p : Decimal, p.value = x.value ^ n.natAbs → p.InRange →
        (n < 0 → c.digits + 1 + p.length < UInt32.size) →
        RoundedOnce c (x.value ^ n) (x.pow y c) := by
  refine ⟨(rounds_mul x y).roundedOnce, fun hy hshift => (rounds_div x hy hshift).roundedOnce,
    fun n hy hn hx p hp hrange hsize => Rounds.roundedOnce (rounds_pow hy hn ?_ ?_)⟩
  · have hbounds := hrange.bounds (hp ▸ pow_ne_zero _ hx)
    rwa [hp] at hbounds
  · intro hneg z hz
    obtain rfl : z = p := value_injective (hz.trans hp.symm)
    exact hsize hneg

theorem mul_div_pow_roundedOnce_three :
    let c := Context.ofDigits 28
    let three : Decimal := ⟨3, 0, .inr (by decide)⟩
    let minusTwo : Decimal := ⟨-2, 0, .inr (by decide)⟩
    RoundedOnce c (3 * -2) (three.mul minusTwo c) ∧
      RoundedOnce c (-2 / 3) (minusTwo.div three c) ∧
      RoundedOnce c (3 ^ (-2 : ℤ)) (three.pow minusTwo c) := by
  intro c three minusTwo
  have hthree : three.value = 3 := by norm_num [three, value]
  have hminusTwo : minusTwo.value = -2 := by norm_num [minusTwo, value]
  obtain ⟨hmul, -, hpow⟩ := mul_div_pow_roundedOnce c three minusTwo
  obtain ⟨-, hdiv, -⟩ := mul_div_pow_roundedOnce c minusTwo three
  rw [hthree, hminusTwo] at hmul hdiv
  refine ⟨hmul, hdiv (by norm_num) (by decide +kernel), ?_⟩
  rw [← hthree]
  refine hpow (-2) (by rw [hminusTwo]; norm_num) (by decide) (by rw [hthree]; norm_num)
    ⟨9, 0, .inr (by decide)⟩ ?_ (by decide +kernel) (by decide +kernel)
  rw [hthree]
  norm_num [value]

end Decimal

end DeskCalculator
