import DeskCalculator.NamedFunction
import DeskCalculator.Proofs.ExponentialSteps
import DeskCalculator.Proofs.Quotient

/-!
# Powers of ten

A power of ten has a single digit, so products and quotients of powers of ten are powers of ten
again and lose nothing. Ten raised to an integer by repeated squaring is the exact power: at each
turn the power still to come is at least the square, so a square never leaves the range before the
result does. The logarithm reads the exponent back.
-/

set_option autoImplicit false

namespace DeskCalculator

open DeskCalculator.Natural

namespace Decimal

def tenPower (k : ℤ) : Decimal := ⟨1, k, .inr (by decide)⟩

theorem value_tenPower (k : ℤ) : (tenPower k).value = 10 ^ k := by
  rw [value, tenPower, Int.cast_one, one_mul]

theorem length_tenPower (k : ℤ) : (tenPower k).length = 1 := by
  show digitCount 1 = 1
  exact (digitCount_eq_iff (by decide)).mpr (by decide)

theorem adjusted_tenPower (k : ℤ) : (tenPower k).adjusted = k := by
  rw [adjusted, length_tenPower]
  exact add_sub_cancel_right k 1

theorem tenPower_zero : tenPower 0 = one := rfl

theorem ofInt_ten : ofInt 10 = tenPower 1 :=
  value_injective (by rw [value_ofInt, value_tenPower]; norm_num)

variable {c : Context} {a b k : ℤ} {n : ℕ}

theorem inRange_tenPower (hlow : -maxAdjusted ≤ k) (hhigh : k ≤ maxAdjusted) :
    (tenPower k).InRange := by
  rw [inRange_iff_adjusted, adjusted_tenPower]
  exact ⟨hlow, hhigh⟩

theorem length_tenPower_le (k : ℤ) : (tenPower k).length ≤ c.digits := by
  rw [length_tenPower]
  exact c.positive

theorem rounds_tenPower (hlow : -maxAdjusted ≤ k) (hhigh : k ≤ maxAdjusted) :
    Rounds c (10 ^ k) (some (tenPower k)) :=
  value_tenPower k ▸ rounds_settled (inRange_tenPower hlow hhigh) (length_tenPower_le k)

theorem tenPower_mul (hlow : -maxAdjusted ≤ a + b) (hhigh : a + b ≤ maxAdjusted) :
    (tenPower a).mul (tenPower b) c = some (tenPower (a + b)) := by
  refine (rounds_mul _ _).unique ?_
  rw [value_tenPower, value_tenPower, ← ten_zpow_add]
  exact rounds_tenPower hlow hhigh

theorem one_div_tenPower (hlow : -maxAdjusted ≤ -k) (hhigh : -k ≤ maxAdjusted)
    (hsize : c.digits + 2 < UInt32.size) : one.div (tenPower k) c = some (tenPower (-k)) := by
  have hk : (tenPower k).value ≠ 0 := by
    rw [value_tenPower]
    exact (ten_zpow_pos k).ne'
  refine (rounds_div one hk ?_).unique ?_
  · rw [← tenPower_zero, length_tenPower, length_tenPower]
    exact hsize
  · rw [value_one, value_tenPower, one_div, ← zpow_neg]
    exact rounds_tenPower hlow hhigh

/-- What is left to multiply at a turn is at least the next square, which so stays in the range as
long as the result does. -/
theorem squareAndMultiply_tenPower (ha : 0 ≤ a) (hb : 0 ≤ b) (h : a + n * b ≤ maxAdjusted) :
    squareAndMultiply c n (tenPower b) (tenPower a) = some (tenPower (a + n * b)) := by
  have hmax : 0 ≤ maxAdjusted := by decide
  induction n using Nat.strongRecOn generalizing a b with
  | ind n ih =>
    rw [squareAndMultiply_eq]
    by_cases hn : n = 0
    · simp [hn]
    rw [if_neg hn]
    have hsplit : (n : ℤ) * b = (n % 2 : ℕ) * b + (n / 2 : ℕ) * (b + b) := by
      conv_lhs => rw [← Nat.mod_add_div n 2]
      push_cast
      ring
    have hrest : 0 ≤ ((n / 2 : ℕ) : ℤ) * (b + b) := by positivity
    -- the product that an odd exponent asks for
    have hacc : (if n % 2 = 1 then (tenPower a).mul (tenPower b) c else some (tenPower a)) =
        some (tenPower (a + (n % 2 : ℕ) * b)) := by
      split
      · next hodd =>
        rw [hodd, Nat.cast_one, one_mul] at hsplit ⊢
        exact tenPower_mul (by omega) (by omega)
      · next heven => rw [show n % 2 = 0 by omega, Nat.cast_zero, zero_mul, add_zero]
    rw [hacc, Option.bind_some, hsplit, ← add_assoc]
    have hodd : 0 ≤ a + ((n % 2 : ℕ) : ℤ) * b := by positivity
    split
    · next hhalf => rw [hhalf, Nat.cast_zero, zero_mul, add_zero]
    · next hhalf =>
      have hsquare : b + b ≤ ((n / 2 : ℕ) : ℤ) * (b + b) :=
        le_mul_of_one_le_left (by omega) (by omega)
      rw [tenPower_mul (by omega) (by omega), Option.bind_some]
      exact ih (n / 2) (by omega) hodd (by omega) (by omega)

theorem naturalPower_ten (hn : n ≤ maxAdjusted) :
    (tenPower 1).naturalPower n c = some (tenPower n) := by
  by_cases hsmall : n ≤ maxExactPower
  · obtain ⟨p, hp, hpv⟩ := (tenPower 1).naturalPower_eq hsmall c
    obtain rfl : p = tenPower n := value_injective (by
      rw [hpv, value_tenPower, value_tenPower, zpow_one, zpow_natCast])
    have hmin : -maxAdjusted ≤ 0 := by decide
    rw [hp, bounded?, if_pos (inRange_tenPower (by omega) hn)]
  · rw [naturalPower, if_neg hsmall, ← tenPower_zero,
      squareAndMultiply_tenPower le_rfl zero_le_one (by omega)]
    simp

theorem integerPower_ten (hlow : -maxAdjusted ≤ k) (hhigh : k ≤ maxAdjusted)
    (hsize : k < 0 → c.digits + 2 < UInt32.size) :
    (tenPower 1).integerPower k c = some (tenPower k) := by
  rw [integerPower, naturalPower_ten (by omega)]
  simp only
  split
  · next hneg =>
    rw [one_div_tenPower (by omega) (by omega) (hsize hneg)]
    congr 2
    omega
  · next hnonneg =>
    refine (rounds_round (tenPower k.natAbs)).unique ?_
    rw [value_tenPower, Int.natAbs_of_nonneg (not_lt.mp hnonneg)]
    exact rounds_tenPower hlow hhigh

theorem ten_pow_ofInt (hlow : -maxAdjusted ≤ k) (hhigh : k ≤ maxAdjusted)
    (hsize : k < 0 → c.digits + 2 < UInt32.size) :
    (ofInt 10).pow (ofInt k) c = some (tenPower k) := by
  rw [ofInt_ten]
  by_cases hk : k = 0
  · rw [hk, pow, if_pos (isZero_iff.mpr (by rw [value_ofInt, Int.cast_zero])), tenPower_zero]
  have hmax : maxAdjusted = 9000000000000000 := rfl
  have hten : (tenPower 1).value ≠ 0 := by
    rw [value_tenPower]
    exact (ten_zpow_pos 1).ne'
  rw [pow_eq_integerPower hten hk (value_ofInt k) ⟨by omega, by omega⟩]
  exact integerPower_ten hlow hhigh hsize

theorem settled_ofInt (hlow : -maxAdjusted ≤ k) (hhigh : k ≤ maxAdjusted)
    (hdigits : 16 ≤ c.digits) : Settled c (ofInt k) := by
  have hmax : maxAdjusted = 9000000000000000 := rfl
  have hsixteen : tens 16 = 10000000000000000 := by rw [tens_eq_pow]; rfl
  refine ⟨?_, (length_ofScaled_le 0 (by decide) (by omega : k.natAbs ≤ tens 16)).trans hdigits⟩
  have habs : |(ofInt k).value| = (|k| : ℤ) := by rw [value_ofInt, Int.cast_abs]
  refine inRange_of_abs ?_ fun hne => ?_
  · calc |(ofInt k).value| ≤ 10 ^ (16 : ℤ) := by
          rw [habs]
          exact_mod_cast abs_le.mpr (by omega : -10 ^ 16 ≤ k ∧ k ≤ 10 ^ 16)
      _ < 10 ^ (maxAdjusted + 1) := ten_zpow_lt.mpr (by decide)
  · rw [value_ofInt, Int.cast_ne_zero] at hne
    calc (10 : ℚ) ^ (-maxAdjusted) ≤ 10 ^ (0 : ℤ) := ten_zpow_le.mpr (by decide)
      _ ≤ |(ofInt k).value| := by
          rw [habs, zpow_zero]
          exact_mod_cast Int.one_le_abs hne

theorem log10_tenPower (hlow : -maxAdjusted ≤ k) (hhigh : k ≤ maxAdjusted)
    (hdigits : 16 ≤ c.digits) : (tenPower k).log10 c = some (ofInt k) := by
  have hsettled := settled_ofInt (c := c) hlow hhigh hdigits
  have hone : (tenPower k).significand = one := value_injective (by
    rw [significand, value_ofScaled, length_tenPower]
    simp [tenPower, value_one])
  rw [log10, if_neg (by simp [tenPower]), if_pos hone, adjusted_tenPower,
    round_of_length_le hsettled.length_le, bounded?, if_pos hsettled.inRange]

end Decimal

open Decimal

/-- Powers of ten are exact both ways: ten to the power of `k` is one followed by `k` zeros, or the
inverse of that, and the logarithm of the result is `k`, for every exponent of the range. -/
theorem tenpow_log_exact {k : ℤ} (hlow : -maxAdjusted ≤ k) (hhigh : k ≤ maxAdjusted) {c : Context}
    (hdigits : 16 ≤ c.digits) (hsize : k < 0 → c.digits + 7 < UInt32.size)
    (others others' : List Decimal) (unit unit' : AngleUnit) :
    NamedFunction.tenpow.apply (ofInt k) others unit c = .ok (tenPower k) ∧
      NamedFunction.log.apply (tenPower k) others' unit' c = .ok (ofInt k) := by
  have hwide : (c.widen NamedFunction.guardDigits).digits = c.digits + 5 :=
    max_eq_left (Nat.le_add_left 1 _)
  constructor
  · rw [NamedFunction.apply, NamedFunction.compute,
      ten_pow_ofInt hlow hhigh (fun hneg => by rw [hwide]; exact hsize hneg)]
    exact congrArg Except.ok (round_of_length_le (length_tenPower_le k))
  · have hpositive : ((tenPower k).isNegative || (tenPower k).isZero) = false := rfl
    rw [NamedFunction.apply, NamedFunction.compute, hpositive,
      log10_tenPower hlow hhigh (by omega)]
    exact congrArg Except.ok
      (round_of_length_le (settled_ofInt (c := c) hlow hhigh hdigits).length_le)

theorem tenpow_log_exact_least :
    let c := Context.ofDigits 28
    NamedFunction.tenpow.apply (ofInt (-9000000000000000)) [] .degree c =
        .ok ⟨1, -9000000000000000, .inr (by decide)⟩ ∧
      NamedFunction.log.apply ⟨1, -9000000000000000, .inr (by decide)⟩ [] .degree c =
        .ok (ofInt (-9000000000000000)) :=
  tenpow_log_exact (by decide) (by decide) (by decide) (by decide) [] [] .degree .degree

end DeskCalculator
