/-!
# Integer roots and modular powers

The floor of a `k`-th root by descent from a power of two above it, and a power
modulo a number by repeated squaring. Each descent step strictly lowers the
candidate, which is what ends it.
-/

set_option autoImplicit false

namespace DeskCalculator.Natural

def rootStep (k n x : Nat) : Nat := ((k - 1) * x + n / Nat.pow x (k - 1)) / k

def rootDescent (k n x : Nat) : Nat :=
  if rootStep k n x < x then rootDescent k n (rootStep k n x) else x
termination_by x

/-- The floor of the `k`-th root. The descent starts at a power of two that is
not below the root. -/
def floorRoot (k n : Nat) : Nat := rootDescent k n (Nat.pow 2 (n.log2 / k + 1))

def floorSqrt (n : Nat) : Nat := floorRoot 2 n

theorem le_rootStep_two (n x m : Nat) (hx : 0 < x) (h : m * m ≤ n) : m ≤ rootStep 2 n x := by
  have hdiv : 2 * m - x ≤ n / x := by
    rw [Nat.le_div_iff_mul_le hx]
    refine Nat.le_trans ?_ h
    rcases Nat.le_total x (2 * m) with hle | hle
    · obtain ⟨d, hd⟩ := Nat.exists_eq_add_of_le hle
      rw [hd, Nat.add_sub_cancel_left]
      rcases Nat.le_total x d with hxd | hxd
      · obtain ⟨c, rfl⟩ := Nat.exists_eq_add_of_le hxd
        have hm : 4 * (m * m) = (x + (x + c)) * (x + (x + c)) := by rw [← hd, Nat.mul_mul_mul_comm]
        have hs : (x + (x + c)) * (x + (x + c)) = 4 * ((x + c) * x) + c * c := by grind
        omega
      · obtain ⟨c, rfl⟩ := Nat.exists_eq_add_of_le hxd
        have hm : 4 * (m * m) = (d + c + d) * (d + c + d) := by rw [← hd, Nat.mul_mul_mul_comm]
        have hs : (d + c + d) * (d + c + d) = 4 * (d * (d + c)) + c * c := by grind
        omega
    · rw [Nat.sub_eq_zero_of_le hle, Nat.zero_mul]
      exact Nat.zero_le _
  have hone : Nat.pow x (2 - 1) = x := Nat.pow_one x
  rw [rootStep, hone]
  omega

theorem le_rootDescent_two (n x m : Nat) (hm : m ≤ x) (h : m * m ≤ n) : m ≤ rootDescent 2 n x := by
  induction x using Nat.strongRecOn with
  | ind x ih =>
    rw [rootDescent]
    split
    · next hlt => exact ih _ hlt (le_rootStep_two n x m (by omega) h)
    · exact hm

theorem le_floorSqrt (n m : Nat) (h : m * m ≤ n) : m ≤ floorSqrt n := by
  apply le_rootDescent_two n _ m _ h
  have hn : n < 2 ^ (n.log2 + 1) := Nat.lt_log2_self
  have hle : 2 ^ (n.log2 + 1) ≤ 2 ^ (n.log2 / 2 + 1) * 2 ^ (n.log2 / 2 + 1) := by
    rw [← Nat.pow_add]
    exact Nat.pow_le_pow_right (by decide) (by omega)
  have hlt : m * m < 2 ^ (n.log2 / 2 + 1) * 2 ^ (n.log2 / 2 + 1) := by omega
  exact Nat.le_of_lt (Nat.mul_self_lt_mul_self_iff.mp hlt)

def powMod (base e m : Nat) : Nat :=
  if e = 0 then 1 % m
  else
    let half := powMod base (e / 2) m
    let square := half * half % m
    if e % 2 = 1 then square * base % m else square

theorem powMod_eq (base e m : Nat) : powMod base e m = Nat.pow base e % m := by
  show powMod base e m = base ^ e % m
  fun_induction powMod base e m with
  | case1 => simp
  | case2 e h0 half square h1 ih =>
    simp only [square, half, ih]
    conv => rhs; rw [show e = e / 2 + e / 2 + 1 by omega, Nat.pow_succ, Nat.pow_add]
    simp [Nat.mul_mod]
  | case3 e h0 half square h1 ih =>
    simp only [square, half, ih]
    conv => rhs; rw [show e = e / 2 + e / 2 by omega, Nat.pow_add]
    simp [Nat.mul_mod]

end DeskCalculator.Natural
