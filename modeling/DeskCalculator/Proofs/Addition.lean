import DeskCalculator.Decimal.Arithmetic
import DeskCalculator.Proofs.Rounding

/-!
# Sums

What a sum rounds. A term far below the other one is replaced by a single unit under
all digits of that one. As long as the larger term has at most three digits more than
are kept, the unit rounds as the smaller term does. Under the digits of a longer one
the unit is too small: the smaller term is lost, and the longer one is rounded alone.
-/

set_option autoImplicit false

namespace DeskCalculator.Decimal

open DeskCalculator.Natural

def Alignable (x y : Decimal) (c : Context) : Prop :=
  let a := x.besides y c
  let b := y.besides x c
  (a.exponent - min a.exponent b.exponent).toNat < UInt32.size ∧
    (b.exponent - min a.exponent b.exponent).toNat < UInt32.size

/-- `y` lies far below the leading digit of `x`, and `x` is so long that `y` is lost in the sum. -/
def Eclipses (x y : Decimal) (digits : ℕ) : Prop :=
  digits + 3 < x.length ∧ y.adjusted + digits + 2 < x.adjusted

instance (x y : Decimal) (digits : ℕ) : Decidable (x.Eclipses y digits) :=
  inferInstanceAs (Decidable (_ ∧ _))

/-- The number that a sum rounds: an eclipsed term does not count. -/
def visibleSum (x y : Decimal) (digits : ℕ) : ℚ :=
  if x.Eclipses y digits then x.value
  else if y.Eclipses x digits then y.value
  else x.value + y.value

variable {x y : Decimal} {c : Context}

theorem not_eclipses_of_isZero (h : x.value = 0) (y : Decimal) (digits : ℕ) :
    ¬ x.Eclipses y digits := by
  intro he
  have hl := he.1
  rw [length, value_eq_zero.mp h, Int.natAbs_zero, digitCount_zero] at hl
  omega

theorem not_eclipses_of_le {digits : ℕ} (h : x.adjusted - digits - 2 ≤ y.adjusted) :
    ¬ x.Eclipses y digits := by
  intro he
  have := he.2
  omega

theorem Eclipses.not_symm {digits : ℕ} (h : x.Eclipses y digits) : ¬ y.Eclipses x digits := by
  have := h.2
  exact not_eclipses_of_le (by omega)

theorem visibleSum_comm (x y : Decimal) (digits : ℕ) :
    x.visibleSum y digits = y.visibleSum x digits := by
  unfold visibleSum
  by_cases h : x.Eclipses y digits
  · rw [if_pos h, if_neg h.not_symm, if_pos h]
  · rw [if_neg h, if_neg h, add_comm]

def alignedWith (power : ℕ → ℕ) (a b : Decimal) (c : Context) : Option Decimal :=
  let e := min a.exponent b.exponent
  finish (a.mantissa * power (a.exponent - e).toNat + b.mantissa * power (b.exponent - e).toNat) e c

def addWith (power : ℕ → ℕ) (x y : Decimal) (c : Context) : Option Decimal :=
  if y.isZero then (x.round c.digits).bounded?
  else if x.isZero then (y.round c.digits).bounded?
  else alignedWith power (x.besides y c) (y.besides x c) c

theorem addWith_powerOfTen (x y : Decimal) (c : Context) :
    x.addWith powerOfTen y c = x.add y c := rfl

theorem addWith_of_ne_zero (power : ℕ → ℕ) (hx : x.value ≠ 0) (hy : y.value ≠ 0) :
    x.addWith power y c = alignedWith power (x.besides y c) (y.besides x c) c := by
  rw [addWith, if_neg (fun hz => hy (isZero_iff.mp hz)), if_neg (fun hz => hx (isZero_iff.mp hz))]

theorem alignedWith_eq (power : ℕ → ℕ) {a b : Decimal}
    (ha : power (a.exponent - min a.exponent b.exponent).toNat =
      tens (a.exponent - min a.exponent b.exponent).toNat)
    (hb : power (b.exponent - min a.exponent b.exponent).toNat =
      tens (b.exponent - min a.exponent b.exponent).toNat) :
    ∃ r : Decimal, alignedWith power a b c = (r.round c.digits).bounded? ∧
      r.value = a.value + b.value := by
  refine ⟨_, rfl, ?_⟩
  rw [value_ofScaled, ha, hb, Int.cast_add, add_mul, ← value_eq_mul (min_le_left _ _),
    ← value_eq_mul (min_le_right _ _)]

theorem besides_of_le (h : y.adjusted - c.digits - 2 ≤ x.adjusted) : x.besides y c = x := by
  simp only [besides, if_pos h]

/-- The unit that stands for a small term has its sign, and lies below the last digit of the
other term and below the digits that count. -/
theorem value_besides (h : y.adjusted < x.adjusted - c.digits - 2) :
    (y.besides x c).value =
      (if y.isNegative then -1 else 1) * 10 ^ (min x.exponent (x.adjusted - c.digits - 2) - 1) := by
  simp only [besides, if_neg (not_le.mpr h)]
  split_ifs <;> simp [value]

theorem abs_value_besides (h : y.adjusted < x.adjusted - c.digits - 2) :
    |(y.besides x c).value| = 10 ^ (min x.exponent (x.adjusted - c.digits - 2) - 1) := by
  rw [value_besides h, abs_mul, abs_of_pos (ten_zpow_pos _)]
  split_ifs <;> simp

theorem besides_mul_pos (hy : y.value ≠ 0) (h : y.adjusted < x.adjusted - c.digits - 2) :
    0 < (y.besides x c).value * y.value := by
  have hpos := ten_zpow_pos (min x.exponent (x.adjusted - c.digits - 2) - 1)
  rw [value_besides h]
  split_ifs with hn
  · exact mul_pos_of_neg_of_neg (by linarith) (isNegative_iff.mp hn)
  · have hy0 : 0 < y.value :=
      lt_of_le_of_ne (not_lt.mp fun hlt => hn (isNegative_iff.mpr hlt)) hy.symm
    exact mul_pos (by linarith) hy0

/-! ### Between neighbours -/

theorem exists_between_add {s m : ℤ} {w z : ℚ} (hw : |w| < 10 ^ s) (hz : |z| < 10 ^ s)
    (hpos : 0 < w * z) :
    ∃ k, Between s k (m * 10 ^ s + w) ∧ Between s k (m * 10 ^ s + z) := by
  obtain ⟨hwl, hwu⟩ := abs_lt.mp hw
  obtain ⟨hzl, hzu⟩ := abs_lt.mp hz
  rcases pos_and_pos_or_neg_and_neg_of_mul_pos hpos with ⟨hw0, hz0⟩ | ⟨hw0, hz0⟩
  · refine ⟨m, ⟨?_, ?_⟩, ⟨?_, ?_⟩⟩ <;> linarith
  · refine ⟨m - 1, ⟨?_, ?_⟩, ⟨?_, ?_⟩⟩ <;> push_cast <;> linarith

theorem exists_between_self (hx : x.value ≠ 0) {w : ℚ} (hw : |w| < 10 ^ x.exponent) :
    ∃ k, Between (x.exponent + 1) k x.value ∧ Between (x.exponent + 1) k (x.value + w) := by
  have hnd : ¬ (10 : ℤ) ∣ x.mantissa := by
    rcases x.canonical with ⟨hm, -⟩ | hn
    · exact absurd (value_eq_zero.mpr hm) hx
    · exact hn
  have hlow : 10 * (x.mantissa / 10) + 1 ≤ x.mantissa := by omega
  have hupp : x.mantissa + 1 ≤ 10 * (x.mantissa / 10 + 1) := by omega
  have hlow' : (10 * ((x.mantissa / 10 : ℤ) : ℚ) + 1) ≤ x.mantissa := by exact_mod_cast hlow
  have hupp' : (x.mantissa : ℚ) + 1 ≤ 10 * (((x.mantissa / 10 : ℤ) : ℚ) + 1) := by
    exact_mod_cast hupp
  obtain ⟨hwl, hwu⟩ := abs_lt.mp hw
  have hpos := ten_zpow_pos x.exponent
  have hl := mul_le_mul_of_nonneg_right hlow' hpos.le
  have hu := mul_le_mul_of_nonneg_right hupp' hpos.le
  rw [add_mul, one_mul] at hl hu
  refine ⟨x.mantissa / 10, ⟨?_, ?_⟩, ⟨?_, ?_⟩⟩ <;>
    rw [ten_zpow_add, zpow_one, value] <;> linarith

theorem ten_zpow_le_abs_add (hx : x.value ≠ 0) {w : ℚ} (hw : |w| ≤ 10 ^ (x.adjusted - 1)) :
    10 ^ (x.adjusted - 1) ≤ |x.value + w| := by
  have hsplit := ten_zpow_eq_ten_mul x.adjusted
  have hle := le_abs_value hx
  have hpos := ten_zpow_pos (x.adjusted - 1)
  have htri := abs_sub_abs_le_abs_sub x.value (-w)
  rw [abs_neg, sub_neg_eq_add] at htri
  linarith

/-! ### The sum -/

theorem isRounding_besides (hx : x.value ≠ 0) (hy : y.value ≠ 0)
    (h : y.adjusted < x.adjusted - c.digits - 2) {r : ℚ}
    (hr : IsRounding c.digits (x.value + (y.besides x c).value) r) :
    IsRounding c.digits (x.visibleSum y c.digits) r := by
  have hw := abs_value_besides h
  have hadj := x.adjusted_eq
  have hlead : (10 : ℚ) ^ (x.adjusted - 1) ≤ |x.value + (y.besides x c).value| := by
    apply ten_zpow_le_abs_add hx
    rw [hw]
    exact ten_zpow_le.mpr (by omega)
  by_cases he : x.Eclipses y c.digits
  · -- the unit lies below the last digit of `x`, which is not zero
    have hlen := he.1
    rw [visibleSum, if_pos he]
    have hlt : |(y.besides x c).value| < 10 ^ x.exponent := by
      rw [hw]
      exact ten_zpow_lt.mpr (by omega)
    obtain ⟨k, hk, hk'⟩ := exists_between_self hx hlt
    exact hr.of_between hk' hk hlead (by omega)
  · -- every digit of `x` lies above the unit and above `y`
    have hlen : x.length ≤ c.digits + 3 := by
      by_contra hl
      exact he ⟨by omega, by omega⟩
    have he' : ¬ y.Eclipses x c.digits := not_eclipses_of_le (by omega)
    rw [visibleSum, if_neg he, if_neg he']
    have hmin : min x.exponent (x.adjusted - c.digits - 2) = x.adjusted - c.digits - 2 := by omega
    rw [hmin] at hw
    have hlt : |(y.besides x c).value| < 10 ^ (x.adjusted - c.digits - 2) := by
      rw [hw]
      exact ten_zpow_lt.mpr (by omega)
    have hyt : |y.value| < 10 ^ (x.adjusted - c.digits - 2) :=
      (abs_value_lt y).trans_le (ten_zpow_le.mpr (by omega))
    obtain ⟨k, hk, hk'⟩ := exists_between_add (m := x.mantissa *
      tens (x.exponent - (x.adjusted - c.digits - 2)).toNat) hlt hyt (besides_mul_pos hy h)
    rw [← value_eq_mul (by omega)] at hk hk'
    exact hr.of_between hk hk' hlead (by omega)

theorem isRounding_visibleSum (hx : x.value ≠ 0) (hy : y.value ≠ 0) {r : ℚ}
    (hr : IsRounding c.digits ((x.besides y c).value + (y.besides x c).value) r) :
    IsRounding c.digits (x.visibleSum y c.digits) r := by
  by_cases hxy : y.adjusted < x.adjusted - c.digits - 2
  · rw [besides_of_le (x := x) (by omega)] at hr
    exact isRounding_besides hx hy hxy hr
  by_cases hyx : x.adjusted < y.adjusted - c.digits - 2
  · rw [besides_of_le (x := y) (by omega), add_comm] at hr
    rw [visibleSum_comm]
    exact isRounding_besides hy hx hyx hr
  · rw [besides_of_le (by omega), besides_of_le (by omega)] at hr
    rwa [visibleSum, if_neg (not_eclipses_of_le (not_lt.mp hxy)),
      if_neg (not_eclipses_of_le (not_lt.mp hyx))]

/-- A sum is rounded once, and what is rounded is the exact sum but for an eclipsed term. -/
theorem add_eq (h : Alignable x y c) : ∃ r : Decimal, x.add y c = r.bounded? ∧ r.length ≤ c.digits ∧
    IsRounding c.digits (x.visibleSum y c.digits) r.value := by
  by_cases hy : y.value = 0
  · refine ⟨x.round c.digits, by rw [add, if_pos (isZero_iff.mpr hy)],
      length_round_le x c.positive, ?_⟩
    rw [visibleSum, if_neg (not_eclipses_of_isZero hy x _), hy, add_zero, ite_self]
    exact round_isRounding x c.positive
  by_cases hx : x.value = 0
  · refine ⟨y.round c.digits, ?_, length_round_le y c.positive, ?_⟩
    · rw [add, if_neg (fun hz => hy (isZero_iff.mp hz)), if_pos (isZero_iff.mpr hx)]
    · rw [visibleSum, if_neg (not_eclipses_of_isZero hx y _), hx, zero_add, ite_self]
      exact round_isRounding y c.positive
  obtain ⟨r, hr, hrv⟩ := alignedWith_eq (c := c) powerOfTen (powerOfTen_eq _ h.1) (powerOfTen_eq _ h.2)
  rw [← addWith_powerOfTen, addWith_of_ne_zero _ hx hy]
  refine ⟨r.round c.digits, hr, length_round_le r c.positive, isRounding_visibleSum hx hy ?_⟩
  rw [← hrv]
  exact round_isRounding r c.positive

/-! ### The sum without a unit for a small term -/

section

variable (hx : x.value ≠ 0) (hy : y.value ≠ 0)
  (hxlength : y.adjusted < x.adjusted → x.length ≤ c.digits + 3)
  (hylength : x.adjusted < y.adjusted → y.length ≤ c.digits + 3)

include hxlength hylength

theorem visibleSum_of_length_le : x.visibleSum y c.digits = x.value + y.value := by
  have hxy : ¬ x.Eclipses y c.digits := fun he => by
    have := hxlength (by have := he.2; omega)
    exact absurd he.1 (by omega)
  have hyx : ¬ y.Eclipses x c.digits := fun he => by
    have := hylength (by have := he.2; omega)
    exact absurd he.1 (by omega)
  rw [visibleSum, if_neg hxy, if_neg hyx]

include hx hy

theorem addWith_eq_alignedWith {power : ℕ → ℕ}
    (ha : power ((x.besides y c).exponent -
        min (x.besides y c).exponent (y.besides x c).exponent).toNat =
      tens ((x.besides y c).exponent -
        min (x.besides y c).exponent (y.besides x c).exponent).toNat)
    (hb : power ((y.besides x c).exponent -
        min (x.besides y c).exponent (y.besides x c).exponent).toNat =
      tens ((y.besides x c).exponent -
        min (x.besides y c).exponent (y.besides x c).exponent).toNat) :
    x.addWith power y c = alignedWith tens x y c := by
  obtain ⟨r, hr, hrv⟩ := alignedWith_eq (c := c) power ha hb
  obtain ⟨s, hs, hsv⟩ := alignedWith_eq (a := x) (b := y) (c := c) tens rfl rfl
  have hround := round_isRounding r c.positive
  rw [hrv] at hround
  have hvisible := isRounding_visibleSum hx hy hround
  rw [visibleSum_of_length_le hxlength hylength, ← hsv] at hvisible
  have hsame : r.round c.digits = s.round c.digits :=
    value_injective (hvisible.unique (round_isRounding s c.positive))
  rw [addWith_of_ne_zero _ hx hy, hr, hs, hsame]

/-- As long as the larger term has at most three digits more than are kept, the sum is what comes of
aligning the two mantissas on the lower exponent, adding them and rounding once, however far apart
the terms are. This holds with exact powers of ten, and of those that are held in 32 bits where the
exponents they are asked for are. -/
theorem add_eq_alignedWith :
    x.addWith tens y c = alignedWith tens x y c ∧
      (Alignable x y c → x.add y c = alignedWith tens x y c) := by
  refine ⟨addWith_eq_alignedWith hx hy hxlength hylength rfl rfl, fun h => ?_⟩
  rw [← addWith_powerOfTen]
  exact addWith_eq_alignedWith hx hy hxlength hylength (powerOfTen_eq _ h.1) (powerOfTen_eq _ h.2)

end

/-! ### The sign of a term -/

theorem exponent_besides (x y : Decimal) (c : Context) : (x.besides y c).exponent =
    if y.adjusted - c.digits - 2 ≤ x.adjusted then x.exponent
    else min y.exponent (y.adjusted - c.digits - 2) - 1 := by
  simp only [besides]
  split_ifs <;> rfl

theorem Alignable.neg (h : Alignable x y c) : Alignable x (-y) c := by
  have he : (-y).exponent = y.exponent := rfl
  unfold Alignable at *
  simp only [exponent_besides, adjusted_neg, he] at *
  exact h

theorem alignable_of_lt (h : x.length + y.length + c.digits + 4 < UInt32.size) :
    Alignable x y c := by
  have hx := x.adjusted_eq
  have hy := y.adjusted_eq
  unfold Alignable
  simp only [exponent_besides]
  split_ifs <;> constructor <;> omega

theorem add_eq_alignedWith_half :
    let c := Context.ofDigits 3
    let half : Decimal := ⟨1005, -3, .inr (by decide)⟩
    let ten : Decimal := ⟨1, 1, .inr (by decide)⟩
    let small : Decimal := ⟨9, -6, .inr (by decide)⟩
    half.add small c = alignedWith tens half small c ∧
      half.add small c = some ⟨101, -2, .inr (by decide)⟩ ∧
      half.add (-small) c = alignedWith tens half (-small) c ∧ half.add (-small) c = some one ∧
      ten.add (-small) c = alignedWith tens ten (-small) c ∧ ten.add (-small) c = some ten := by
  intro c half ten small
  have hhalf : half.value ≠ 0 := by norm_num [half, value]
  have hten : ten.value ≠ 0 := by norm_num [ten, value]
  have hsmall : small.value ≠ 0 := by norm_num [small, value]
  have hneg : (-small).value ≠ 0 := by rwa [value_neg, neg_ne_zero]
  refine ⟨(add_eq_alignedWith hhalf hsmall (by decide +kernel) (by decide +kernel)).2
      (alignable_of_lt (by decide +kernel)), by decide +kernel,
    (add_eq_alignedWith hhalf hneg (by decide +kernel) (by decide +kernel)).2
      (alignable_of_lt (by decide +kernel)), by decide +kernel,
    (add_eq_alignedWith hten hneg (by decide +kernel) (by decide +kernel)).2
      (alignable_of_lt (by decide +kernel)), by decide +kernel⟩

end DeskCalculator.Decimal
