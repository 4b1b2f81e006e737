/-!
# Decimal digits of natural numbers

The number of decimal digits, the number of trailing zeros, and powers of ten.
A digit count starts from the bit length: `59 / 196` lies just below the
logarithm of two in base ten, so the search begins at most a few steps below
the answer and never above it.
-/

set_option autoImplicit false

namespace DeskCalculator.Natural

def tens (n : Nat) : Nat := Nat.pow 10 n

theorem tens_zero : tens 0 = 1 := rfl

theorem tens_succ (n : Nat) : tens (n + 1) = tens n * 10 := rfl

theorem tens_pos (n : Nat) : 0 < tens n := Nat.pow_pos (by decide)

theorem lt_tens (n : Nat) : n < tens n := Nat.lt_pow_self (by decide)

def digitCountFrom (n k : Nat) : Nat :=
  if tens k ≤ n then digitCountFrom n (k + 1) else k
termination_by n - k
decreasing_by
  have hk := lt_tens k
  omega

def digitCount (n : Nat) : Nat := digitCountFrom n (n.log2 * 59 / 196 + 1)

/-- How often ten divides `n`; zero counts as having no trailing zero. -/
def trailingZeros (n : Nat) : Nat :=
  if n = 0 then 0
  else if n % 10 = 0 then trailingZeros (n / 10) + 1
  else 0

theorem tens_trailingZeros_dvd (n : Nat) : tens (trailingZeros n) ∣ n := by
  induction n using trailingZeros.induct with
  | case1 => exact Nat.dvd_zero _
  | case2 n h0 h10 ih =>
    rw [trailingZeros, if_neg h0, if_pos h10, tens_succ]
    obtain ⟨c, hc⟩ := ih
    exact ⟨c, by rw [Nat.mul_right_comm, ← hc]; omega⟩
  | case3 n h0 h10 => rw [trailingZeros, if_neg h0, if_neg h10]; exact Nat.one_dvd n

theorem not_ten_dvd_div_trailingZeros (n : Nat) (h : n ≠ 0) :
    ¬ 10 ∣ n / tens (trailingZeros n) := by
  induction n using trailingZeros.induct with
  | case1 => exact absurd rfl h
  | case2 n h0 h10 ih =>
    rw [trailingZeros, if_neg h0, if_pos h10, tens_succ, Nat.mul_comm, ← Nat.div_div_eq_div_mul]
    exact ih (by omega)
  | case3 n h0 h10 =>
    rw [trailingZeros, if_neg h0, if_neg h10, tens_zero, Nat.div_one]
    omega

/-- Ten to the power `n`, with the exponent held in 32 bits. -/
def powerOfTen (n : Nat) : Nat := tens (n % UInt32.size)

theorem powerOfTen_pos (n : Nat) : 0 < powerOfTen n := tens_pos _

theorem powerOfTen_eq (n : Nat) (h : n < UInt32.size) : powerOfTen n = tens n := by
  rw [powerOfTen, Nat.mod_eq_of_lt h]

end DeskCalculator.Natural
