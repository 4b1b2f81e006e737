import DeskCalculator.Natural.Digits
import Mathlib

/-!
# The number of digits

The search for the number of digits starts low enough, so what it finds is the
least power of ten above the number. Everything known of a digit count follows
from the two powers of ten around the number.
-/

set_option autoImplicit false

namespace DeskCalculator.Natural

theorem tens_eq_pow (n : Nat) : tens n = 10 ^ n := rfl

theorem tens_ne_zero (n : Nat) : tens n ≠ 0 := (tens_pos n).ne'

theorem cast_tens {R : Type} [Semiring R] (k : Nat) : ((tens k : Nat) : R) = 10 ^ k := by
  rw [tens_eq_pow, Nat.cast_pow, Nat.cast_ofNat]

theorem cast_tens_ne_zero (n : Nat) : ((tens n : Nat) : Int) ≠ 0 :=
  Int.natCast_ne_zero.mpr (tens_ne_zero n)

theorem tens_add (m n : Nat) : tens (m + n) = tens m * tens n := Nat.pow_add 10 m n

theorem tens_le_tens {m n : Nat} (h : m ≤ n) : tens m ≤ tens n :=
  Nat.pow_le_pow_right (by decide) h

theorem tens_lt_tens_iff {m n : Nat} : tens m < tens n ↔ m < n :=
  Nat.pow_lt_pow_iff_right (by decide)

theorem digitCountFrom_spec (n k : Nat) : k ≤ digitCountFrom n k ∧ n < tens (digitCountFrom n k) ∧
    (digitCountFrom n k = k ∨ tens (digitCountFrom n k - 1) ≤ n) := by
  induction k using digitCountFrom.induct n with
  | case1 k hk ih =>
    rw [digitCountFrom, if_pos hk]
    obtain ⟨hle, hlt, hstop⟩ := ih
    refine ⟨by omega, hlt, Or.inr ?_⟩
    rcases hstop with hstop | hstop
    · rwa [hstop, Nat.add_sub_cancel]
    · exact hstop
  | case2 k hk =>
    rw [digitCountFrom, if_neg hk]
    exact ⟨Nat.le_refl k, by omega, Or.inl rfl⟩

theorem tens_start_le {n : Nat} (hn : n ≠ 0) : tens (n.log2 * 59 / 196) ≤ n := by
  refine Nat.le_trans ?_ (Nat.log2_self_le hn)
  have hq : 196 * (n.log2 * 59 / 196) ≤ 59 * n.log2 := by omega
  -- compare the powers of order 196
  refine (Nat.pow_le_pow_iff_left (n := 196) (by decide)).mp ?_
  calc tens (n.log2 * 59 / 196) ^ 196
      = 10 ^ (196 * (n.log2 * 59 / 196)) := by rw [tens_eq_pow, ← Nat.pow_mul, Nat.mul_comm]
    _ ≤ 10 ^ (59 * n.log2) := Nat.pow_le_pow_right (by decide) hq
    _ = (10 ^ 59) ^ n.log2 := Nat.pow_mul 10 59 n.log2
    _ ≤ (2 ^ 196) ^ n.log2 := Nat.pow_le_pow_left (by decide) _
    _ = (2 ^ n.log2) ^ 196 := by rw [← Nat.pow_mul, ← Nat.pow_mul, Nat.mul_comm]

theorem digitCount_pos (n : Nat) : 0 < digitCount n :=
  Nat.lt_of_lt_of_le (Nat.succ_pos _) (digitCountFrom_spec n _).1

theorem lt_tens_digitCount (n : Nat) : n < tens (digitCount n) := (digitCountFrom_spec n _).2.1

theorem tens_digitCount_le {n : Nat} (hn : n ≠ 0) : tens (digitCount n - 1) ≤ n := by
  rcases (digitCountFrom_spec n (n.log2 * 59 / 196 + 1)).2.2 with h | h
  · rw [digitCount, h]
    exact tens_start_le hn
  · exact h

theorem digitCount_eq_iff {n d : Nat} (hn : n ≠ 0) :
    digitCount n = d + 1 ↔ tens d ≤ n ∧ n < tens (d + 1) := by
  have hle := tens_digitCount_le hn
  have hlt := lt_tens_digitCount n
  have hpos := digitCount_pos n
  constructor
  · intro h
    rw [h] at hle hlt
    exact ⟨hle, hlt⟩
  · rintro ⟨hd, hd'⟩
    have h1 := tens_lt_tens_iff.mp (Nat.lt_of_le_of_lt hd hlt)
    have h2 := tens_lt_tens_iff.mp (Nat.lt_of_le_of_lt hle hd')
    omega

theorem digitCount_zero : digitCount 0 = 1 := by
  rw [digitCount, digitCountFrom, if_neg (by decide)]
  rfl

theorem digitCount_le_iff {n d : Nat} (hd : 0 < d) : digitCount n ≤ d ↔ n < tens d := by
  by_cases hn : n = 0
  · rw [hn, digitCount_zero]
    exact iff_of_true hd (tens_pos d)
  · constructor
    · intro h
      exact Nat.lt_of_lt_of_le (lt_tens_digitCount n) (tens_le_tens h)
    · intro h
      have h1 := tens_lt_tens_iff.mp (Nat.lt_of_le_of_lt (tens_digitCount_le hn) h)
      omega

end DeskCalculator.Natural
