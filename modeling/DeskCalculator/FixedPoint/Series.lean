/-!
# Truncated power series on scaled integers

A real number is stood for by an integer multiple of `1 / scale`. The terms of
a series are magnitudes: each is computed from the one before it by truncating
divisions, and the list ends before the first zero. Signs belong to the sum, not
to the terms.
-/

set_option autoImplicit false

namespace DeskCalculator.FixedPoint

/-- The terms after `t` of a series whose `n`-th term is the one before it times
`ratio / scale` and divided by `divisor n`. The divisors grow at least like `n`, so
from some term on each is smaller than the one before. -/
def factorialTerms (ratio scale : Nat) (divisor : Nat → Nat) (grows : ∀ n, n ≤ divisor n)
    (n t : Nat) : List Nat :=
  let next := t * ratio / scale / divisor n
  if last : next = 0 then [] else next :: factorialTerms ratio scale divisor grows (n + 1) next
termination_by (ratio / scale + 1 - n, t)
decreasing_by
  have hne : ¬ t * ratio / scale / divisor n = 0 := last
  by_cases hn : n ≤ ratio / scale
  · exact Prod.Lex.left _ _ (by omega)
  · rw [show ratio / scale + 1 - (n + 1) = ratio / scale + 1 - n by omega]
    apply Prod.Lex.right
    -- once `n` exceeds the ratio a term is less than the one before it
    have hg := grows n
    have hs : 0 < scale := by
      rcases Nat.eq_zero_or_pos scale with rfl | hs
      · simp at hne
      · exact hs
    have ht : 0 < t := by
      rcases Nat.eq_zero_or_pos t with rfl | ht
      · simp at hne
      · exact ht
    have hr : ratio < n * scale := (Nat.div_lt_iff_lt_mul hs).mp (Nat.lt_of_not_le hn)
    have hn0 : 0 < n := Nat.lt_of_le_of_lt (Nat.zero_le _) (Nat.lt_of_not_le hn)
    show t * ratio / scale / divisor n < t
    rw [Nat.div_lt_iff_lt_mul (by omega), Nat.div_lt_iff_lt_mul hs, Nat.mul_assoc]
    refine Nat.mul_lt_mul_of_pos_left (Nat.lt_of_lt_of_le hr ?_) ht
    exact Nat.mul_le_mul_right scale hg

/-- The terms after `p` of a series in odd powers: `p` is multiplied by
`ratio / scale` each time, and the `k`-th term is its quotient by `2 * k + 1`. -/
def oddTerms (ratio scale : Nat) (small : ratio ≤ scale) (k p : Nat) : List Nat :=
  let q := p * ratio / scale
  let t := q / (2 * k + 1)
  if last : t = 0 then [] else t :: oddTerms ratio scale small (k + 1) q
termination_by p + 2 - 2 * k
decreasing_by
  have hne : ¬ p * ratio / scale / (2 * k + 1) = 0 := last
  have hq : p * ratio / scale ≤ p := Nat.div_le_of_le_mul (by
    rw [Nat.mul_comm scale]; exact Nat.mul_le_mul_left p small)
  have hk : 2 * k + 1 ≤ p * ratio / scale := by
    rcases Nat.lt_or_ge (p * ratio / scale) (2 * k + 1) with h | h
    · exact absurd (Nat.div_eq_of_lt h) hne
    · exact h
  omega

/-- The terms `scale / (power * (2 * k + 1))` where `power` is multiplied by `q * q` and
`k` rises by one from each to the next. -/
def inverseTerms (q : Nat) (positive : 0 < q) (scale power k : Nat) : List Nat :=
  let term := scale / (power * (2 * k + 1))
  if last : term = 0 then []
  else term :: inverseTerms q positive scale (power * (q * q)) (k + 1)
termination_by scale + 1 - power * (2 * k + 1)
decreasing_by
  have hne : ¬ scale / (power * (2 * k + 1)) = 0 := last
  have hd : power * (2 * k + 1) ≤ scale := by
    rcases Nat.lt_or_ge scale (power * (2 * k + 1)) with h | h
    · exact absurd (Nat.div_eq_of_lt h) hne
    · exact h
  have hp : 0 < power := by
    rcases Nat.eq_zero_or_pos power with rfl | hp
    · simp at hne
    · exact hp
  have hle : power ≤ power * (q * q) := Nat.le_mul_of_pos_right _ (Nat.mul_pos positive positive)
  have hlt : power * (2 * k + 1) < power * (q * q) * (2 * (k + 1) + 1) :=
    Nat.lt_of_lt_of_le (Nat.mul_lt_mul_of_pos_left (by omega) hp) (Nat.mul_le_mul_right _ hle)
  omega

def total : List Nat → Nat
  | [] => 0
  | a :: rest => a + total rest

def alternating : List Nat → Int
  | [] => 0
  | a :: rest => a - alternating rest

def withSign (x : Int) (magnitude : Int) : Int := if x < 0 then -magnitude else magnitude

end DeskCalculator.FixedPoint
