import DeskCalculator.Proofs.ExponentialSteps
import DeskCalculator.Proofs.Nearest
import DeskCalculator.Proofs.Quotient

/-!
# Roots

A root is taken of a natural number: the mantissa with so many zeros behind it that the exponent is
a multiple of the order and the root has more digits than are kept. Of that number the descent finds
the floor of the root. Where the floor is not the root itself a digit behind it stands for the rest,
and rounds as the real root does.
-/

set_option autoImplicit false

namespace DeskCalculator

open DeskCalculator.Natural DeskCalculator.Decimal

/-! ### The floor of a root -/

namespace Natural

variable {k n x : ℕ}

theorem lt_rootStep_pow (hk : k ≠ 0) (hx : x ≠ 0) : n < (rootStep k n x + 1) ^ k := by
  obtain ⟨j, rfl⟩ := Nat.exists_eq_succ_of_ne_zero hk
  have h := Nat.nthRoot.lt_pow_go_succ_aux (n := j) (a := n) hx
  rwa [Nat.add_comm (n / x ^ j)] at h

theorem lt_rootDescent_pow (hk : k ≠ 0) (h : n < (x + 1) ^ k) :
    n < (rootDescent k n x + 1) ^ k := by
  fun_induction rootDescent k n x with
  | case1 x hlt ih => exact ih (lt_rootStep_pow hk (by omega))
  | case2 x hstop => exact h

theorem rootDescent_pow_le (hk : k ≠ 0) : rootDescent k n x ^ k ≤ n := by
  fun_induction rootDescent k n x with
  | case1 x hlt ih => exact ih
  | case2 x hstop =>
    obtain ⟨j, rfl⟩ := Nat.exists_eq_succ_of_ne_zero hk
    have hstep : x * (j + 1) ≤ j * x + n / x ^ j :=
      (Nat.le_div_iff_mul_le (Nat.succ_pos j)).mp (not_lt.mp hstop)
    have hle : x ≤ n / x ^ j := by
      rw [Nat.mul_succ, Nat.mul_comm x j] at hstep
      omega
    rw [Nat.pow_succ, Nat.mul_comm]
    exact Nat.mul_le_of_le_div _ _ _ hle

theorem floorRoot_eq_nthRoot (hk : k ≠ 0) (n : ℕ) : floorRoot k n = Nat.nthRoot k n := by
  refine (Nat.nthRoot_eq_of_le_of_lt (rootDescent_pow_le hk) (lt_rootDescent_pow hk ?_)).symm
  have hlog := Nat.lt_mul_div_succ n.log2 (Nat.pos_of_ne_zero hk)
  calc n < 2 ^ (n.log2 + 1) := Nat.lt_log2_self
    _ ≤ 2 ^ ((n.log2 / k + 1) * k) := by
        rw [Nat.mul_comm]
        exact Nat.pow_le_pow_right (by decide) hlog
    _ = (2 ^ (n.log2 / k + 1)) ^ k := Nat.pow_mul _ _ _
    _ ≤ (2 ^ (n.log2 / k + 1) + 1) ^ k := Nat.pow_le_pow_left (Nat.le_succ _) k

end Natural

/-! ### The real root of a rational number -/

/-- `ρ` is the real root of `q`, and of two the one that is not negative. -/
structure IsRealRoot (k : ℕ) (q : ℚ) (ρ : ℝ) : Prop where
  pow_eq : ρ ^ k = q
  nonneg : 0 ≤ q → 0 ≤ ρ

theorem exists_isRealRoot {k : ℕ} {q : ℚ} (hk : k ≠ 0) (hsign : 0 ≤ q ∨ Odd k) :
    ∃ ρ, IsRealRoot k q ρ := by
  have hroot : (|(q : ℝ)| ^ (k : ℝ)⁻¹) ^ k = |(q : ℝ)| :=
    Real.rpow_inv_natCast_pow (abs_nonneg _) hk
  rcases le_or_gt 0 q with hq | hq
  · exact ⟨_, hroot.trans (abs_of_nonneg (by exact_mod_cast hq)),
      fun _ => Real.rpow_nonneg (abs_nonneg _) _⟩
  · refine ⟨-|(q : ℝ)| ^ (k : ℝ)⁻¹, ?_, fun h => absurd h (not_le.mpr hq)⟩
    rw [(hsign.resolve_left (not_le.mpr hq)).neg_pow, hroot,
      abs_of_neg (by exact_mod_cast hq), neg_neg]

namespace IsRealRoot

variable {k : ℕ} {q : ℚ} {ρ t : ℝ} {e : ℤ}

theorem abs_pow_eq (h : IsRealRoot k q ρ) : |ρ| ^ k = |(q : ℝ)| := by
  rw [pow_abs, h.pow_eq]

theorem odd_and_neg (h : IsRealRoot k q ρ) (hq : q < 0) : Odd k ∧ ρ < 0 := by
  have hpow : ρ ^ k < 0 := by
    rw [h.pow_eq]
    exact_mod_cast hq
  constructor
  · exact Nat.not_even_iff_odd.mp fun heven => absurd (heven.pow_nonneg ρ) (not_le.mpr hpow)
  · exact not_le.mp fun hρ => absurd (pow_nonneg hρ k) (not_le.mpr hpow)

theorem pow_le (h : IsRealRoot k q ρ) (ht : 0 ≤ t ∨ Odd k) (hle : t ≤ ρ) : t ^ k ≤ q := by
  rw [← h.pow_eq]
  rcases ht with ht | hodd
  · exact pow_le_pow_left₀ ht hle k
  · exact hodd.strictMono_pow.monotone hle

theorem le_pow (h : IsRealRoot k q ρ) (hle : ρ ≤ t) : q ≤ t ^ k := by
  rw [← h.pow_eq]
  rcases le_or_gt 0 q with hq | hq
  · exact pow_le_pow_left₀ (h.nonneg hq) hle k
  · exact (h.odd_and_neg hq).1.strictMono_pow.monotone hle

theorem unique (hk : k ≠ 0) (h : IsRealRoot k q ρ) (ht : IsRealRoot k q t) : ρ = t := by
  have heq : ρ ^ k = t ^ k := h.pow_eq.trans ht.pow_eq.symm
  rcases le_or_gt 0 q with hq | hq
  · exact (pow_left_inj₀ (h.nonneg hq) (ht.nonneg hq) hk).mp heq
  · exact (h.odd_and_neg hq).1.strictMono_pow.injective heq

theorem nonneg_or_odd (h : IsRealRoot k q ρ) : 0 ≤ q ∨ Odd k :=
  (le_or_gt 0 q).imp_right fun hq => (h.odd_and_neg hq).1

theorem eq_zero (h : IsRealRoot k 0 ρ) : ρ = 0 :=
  eq_zero_of_pow_eq_zero (n := k) (by rw [h.pow_eq, Rat.cast_zero])

theorem ten_zpow_le_abs (h : IsRealRoot k q ρ) (hk : k ≠ 0) (he : e ≤ 0) (hq : 10 ^ e ≤ |q|) :
    10 ^ e ≤ |ρ| := by
  have hpow : (10 : ℝ) ^ e ≤ |ρ| ^ k := by
    rw [h.abs_pow_eq]
    exact ten_zpow_le_abs_cast_iff.mpr hq
  by_contra hlt
  rw [not_le] at hlt
  have hone : |ρ| ≤ 1 := hlt.le.trans (zpow_le_one_of_nonpos₀ (by norm_num) he)
  exact absurd (hpow.trans (pow_le_of_le_one (abs_nonneg ρ) hone hk)) (not_le.mpr hlt)

theorem abs_le_ten_zpow (h : IsRealRoot k q ρ) (hk : 2 ≤ k) (he : 1 ≤ e)
    (hq : |q| < 10 ^ (e + 1)) : |ρ| ≤ 10 ^ e := by
  have hpow : |ρ| ^ k < 10 ^ (e + 1) := by
    rw [h.abs_pow_eq]
    exact abs_cast_lt_ten_zpow_iff.mpr hq
  have hexponent : e + 1 ≤ e * k := by
    have hk' : (2 : ℤ) ≤ k := by exact_mod_cast hk
    nlinarith
  have hnext : (10 : ℝ) ^ (e + 1) ≤ (10 ^ e) ^ k := by
    rw [← zpow_natCast, ← zpow_mul]
    exact zpow_le_zpow_right₀ (by norm_num) hexponent
  exact (lt_of_pow_lt_pow_left₀ k (zpow_pos (by norm_num) e).le (hpow.trans_le hnext)).le

theorem eq_signFactor_mul {x : Decimal} (h : IsRealRoot k x.value ρ) : ρ = x.signFactor * |ρ| := by
  unfold signFactor
  split
  · next hneg =>
    rw [abs_of_neg (h.odd_and_neg (isNegative_iff.mp hneg)).2]
    push_cast
    ring
  · next hpos =>
    rw [abs_of_nonneg (h.nonneg (not_lt.mp fun hlt => hpos (isNegative_iff.mpr hlt)))]
    push_cast
    ring

end IsRealRoot

namespace Decimal

/-! ### What the root is taken of -/

variable {x : Decimal} {k : ℕ} {c : Context}

def rootShift (x : Decimal) (k : ℕ) (c : Context) : ℕ :=
  alignedShift x.exponent k (k * (c.digits + 3) - x.length)

def radicand (x : Decimal) (k : ℕ) (c : Context) : ℕ := x.mantissa.natAbs * tens (x.rootShift k c)

def rootExponent (x : Decimal) (k : ℕ) (c : Context) : ℤ := (x.exponent - x.rootShift k c) / k

theorem abs_value_eq_radicand (x : Decimal) (c : Context) (hk : k ≠ 0) :
    |x.value| = x.radicand k c * (10 ^ x.rootExponent k c) ^ k := by
  have hdvd : (k : ℤ) ∣ x.exponent - x.rootShift k c := dvd_sub_alignedShift _ hk _
  have hshift : (x.exponent - (x.exponent - x.rootShift k c)).toNat = x.rootShift k c := by omega
  rw [abs_value, ten_zpow_eq_mul (show x.exponent - x.rootShift k c ≤ x.exponent by omega), hshift,
    ← zpow_natCast, ← zpow_mul, rootExponent, Int.ediv_mul_cancel hdvd, radicand]
  push_cast
  ring

theorem tens_le_floorRoot (hx : x.value ≠ 0) (hk : k ≠ 0) :
    tens c.digits ≤ floorRoot k (x.radicand k c) := by
  rw [floorRoot_eq_nthRoot hk, Nat.le_nthRoot_iff hk]
  have hstart : k * (c.digits + 3) - x.length ≤ x.rootShift k c := Nat.le_add_right _ _
  have hlength := x.length_pos
  have hexponent : c.digits * k ≤ x.length - 1 + x.rootShift k c := by
    have hsplit : k * (c.digits + 3) = c.digits * k + 3 * k := by ring
    omega
  calc tens c.digits ^ k = tens (c.digits * k) := (Nat.pow_mul 10 _ _).symm
    _ ≤ tens (x.length - 1 + x.rootShift k c) := tens_le_tens hexponent
    _ = tens (x.length - 1) * tens (x.rootShift k c) := tens_add _ _
    _ ≤ x.radicand k c := Nat.mul_le_mul_right _ (tens_digitCount_le (natAbs_mantissa_pos hx).ne')

theorem root_admissible (hk : k ≠ 0) (hmax : k ≤ maxRootOrder) (hsign : 0 ≤ x.value ∨ Odd k) :
    ¬(k = 0 ∨ maxRootOrder < k ∨ x.isNegative ∧ k % 2 = 0) := by
  rintro (h | h | ⟨hneg, heven⟩)
  · exact hk h
  · omega
  · rcases hsign with h | h
    · exact absurd (isNegative_iff.mp hneg) (not_lt.mpr h)
    · have := Nat.odd_iff.mp h
      omega

theorem root_eq (hk : k ≠ 0) (hmax : k ≤ maxRootOrder) (hsign : 0 ≤ x.value ∨ Odd k)
    (hx : x.value ≠ 0) (hsize : x.rootShift k c < UInt32.size) : x.root k c =
      let r := floorRoot k (x.radicand k c)
      let e := x.rootExponent k c
      if r ^ k = x.radicand k c then finish (x.signFactor * r) e c
      else finish (x.signFactor * witness r) (e - 1) c := by
  have hpower : powerOfTen (x.rootShift k c) = tens (x.rootShift k c) := powerOfTen_eq _ hsize
  rw [root, if_neg (root_admissible hk hmax hsign), if_neg (fun h => hx (isZero_iff.mp h)),
    radicand, ← hpower]
  rfl

/-! ### The root of a decimal -/

/-- The real number is rounded once, and the rounded number held to the range. -/
def RealRounds (c : Context) (ρ : ℝ) (o : Option Decimal) : Prop :=
  ∃ r : Decimal, r.length ≤ c.digits ∧ IsRealRounding c.digits ρ r.value ∧ o = r.bounded?

theorem realRounds_finish_of_sign {σ m : ℤ} (hσ : σ = 1 ∨ σ = -1) {e : ℤ} {ρ : ℝ}
    (h : ∀ r, IsRounding c.digits (m * 10 ^ e) r → IsRealRounding c.digits ρ r) :
    RealRounds c (σ * ρ) (finish (σ * m) e c) := by
  obtain ⟨r, hl, hr, ho⟩ := rounds_finish_of_sign (c := c) hσ (m := m) (e := e) fun _ h => h
  refine ⟨r, hl, ?_, ho⟩
  rcases hσ with rfl | rfl
  · rw [Int.cast_one, one_mul] at hr ⊢
    exact h _ hr
  · rw [Int.cast_neg, Int.cast_one, neg_one_mul] at hr ⊢
    have hneg := hr.neg
    rw [neg_neg] at hneg
    have hρ := (h _ hneg).neg
    rwa [neg_neg] at hρ

section Magnitude

variable {ρ : ℝ} (hk : k ≠ 0) (hpow : ρ ^ k = |(x.value : ℝ)|)
include hk hpow

theorem pow_eq_radicand : ρ ^ k = x.radicand k c * (10 ^ x.rootExponent k c) ^ k := by
  rw [hpow, ← Rat.cast_abs, abs_value_eq_radicand x c hk]
  push_cast
  rfl

variable (hρ : 0 ≤ ρ)
include hρ

theorem eq_mul_of_pow_eq {r : ℕ} (hr : r ^ k = x.radicand k c) :
    ρ = r * 10 ^ x.rootExponent k c := by
  refine (pow_left_inj₀ hρ (by positivity) hk).mp ?_
  rw [pow_eq_radicand (c := c) hk hpow, ← hr, mul_pow]
  push_cast
  rfl

theorem floorRoot_lt_and_lt (hr : floorRoot k (x.radicand k c) ^ k ≠ x.radicand k c) :
    floorRoot k (x.radicand k c) * 10 ^ x.rootExponent k c < ρ ∧
      ρ < (floorRoot k (x.radicand k c) + 1) * 10 ^ x.rootExponent k c := by
  have hunit : (0 : ℝ) < 10 ^ x.rootExponent k c := zpow_pos (by norm_num) _
  have hle := Nat.pow_nthRoot_le (n := k) (a := x.radicand k c) (.inl hk)
  have hlt := Nat.lt_pow_nthRoot_add_one hk (x.radicand k c)
  rw [← floorRoot_eq_nthRoot hk] at hle hlt
  have hlow : ((floorRoot k (x.radicand k c) : ℕ) : ℝ) ^ k < x.radicand k c := by
    exact_mod_cast lt_of_le_of_ne hle hr
  have hupp : ((x.radicand k c : ℕ) : ℝ) < (floorRoot k (x.radicand k c) + 1) ^ k := by
    exact_mod_cast hlt
  have hval := pow_eq_radicand (c := c) hk hpow
  constructor
  · refine lt_of_pow_lt_pow_left₀ k hρ ?_
    rw [hval, mul_pow]
    exact mul_lt_mul_of_pos_right hlow (pow_pos hunit k)
  · refine lt_of_pow_lt_pow_left₀ k (by positivity) ?_
    rw [hval, mul_pow]
    exact mul_lt_mul_of_pos_right hupp (pow_pos hunit k)

end Magnitude

theorem realRounds_root {ρ : ℝ} (hk : k ≠ 0) (hmax : k ≤ maxRootOrder)
    (hsize : x.rootShift k c < UInt32.size) (h : IsRealRoot k x.value ρ) :
    RealRounds c ρ (x.root k c) := by
  by_cases hx : x.value = 0
  · have hρ : ρ = 0 := IsRealRoot.eq_zero (k := k) (hx ▸ h)
    rw [root, if_neg (root_admissible hk hmax h.nonneg_or_odd), if_pos (isZero_iff.mpr hx)]
    exact ⟨zero, settled_zero.length_le, .inl ⟨hρ, value_zero⟩, rfl⟩
  have hσ : x.signFactor = 1 ∨ x.signFactor = -1 := x.signFactor_eq
  have hlong := tens_le_floorRoot (c := c) hx hk
  rw [h.eq_signFactor_mul, root_eq hk hmax h.nonneg_or_odd hx hsize]
  simp only
  split
  · next hr =>
    refine realRounds_finish_of_sign hσ fun r hround => ?_
    rw [eq_mul_of_pow_eq hk h.abs_pow_eq (abs_nonneg ρ) hr]
    have hcast := isRealRounding_cast_iff.mpr hround
    push_cast at hcast
    exact hcast
  · next hr =>
    obtain ⟨hlow, hupp⟩ := floorRoot_lt_and_lt hk h.abs_pow_eq (abs_nonneg ρ) hr
    refine realRounds_finish_of_sign hσ fun r hround => ?_
    exact hround.isRealRounding_of_between (between_witness _ _) (Int.natCast_nonneg _)
      (by rwa [Int.cast_natCast]) (by rwa [Int.cast_natCast]) (ten_zpow_le_witness hlong _)
      (by omega)

theorem adjusted_root_bounds {ρ : ℝ} {r : Decimal} (hk : k ≠ 0) (hx : x.InRange)
    (h : IsRealRoot k x.value ρ) (hr : IsRealRounding c.digits ρ r.value) :
    -maxAdjusted ≤ r.adjusted ∧ (2 ≤ k → r.adjusted ≤ maxAdjusted) := by
  by_cases hx0 : x.value = 0
  · have hρ : ρ = 0 := IsRealRoot.eq_zero (k := k) (hx0 ▸ h)
    have hrange : r.InRange := .inl (value_eq_zero.mp (hr.eq_zero hρ))
    obtain ⟨hlow, hhigh⟩ := r.inRange_iff_adjusted.mp hrange
    exact ⟨hlow, fun _ => hhigh⟩
  obtain ⟨hlow, hupp⟩ := hx.bounds hx0
  have hle := hr.ten_zpow_le_abs c.positive (h.ten_zpow_le_abs hk (by decide) hlow)
  constructor
  · have := ten_zpow_lt.mp (hle.trans_lt (abs_value_lt r))
    omega
  · intro hk2
    have hge := hr.abs_le_ten_zpow c.positive (h.abs_le_ten_zpow hk2 (by decide) hupp)
    exact ten_zpow_le.mp ((le_abs_value (IsRounding.ne_zero_of_le hle)).trans hge)

/-- The root of a number in the range is its real root rounded once, half to even. The number lies
between the powers of the middles between the root and the other decimals of so many digits, and
a real root of so many digits is found exactly. From square roots on the root is in the range; the
root of order one may be carried above it, and then there is nothing. -/
theorem root_isRealRounding (x : Decimal) (c : Context) {k : ℕ} (hk : 1 ≤ k) (hmax : k ≤ 64)
    (hsign : 0 ≤ x.value ∨ Odd k) (hx : x.InRange) (hsize : x.rootShift k c < UInt32.size) :
    ∃ (ρ : ℝ) (r : Decimal), IsRealRoot k x.value ρ ∧
      r.length ≤ c.digits ∧ IsRealRounding c.digits ρ r.value ∧
      x.root k c = (if maxAdjusted < r.adjusted then none else some r) ∧
      (2 ≤ k → r.adjusted ≤ maxAdjusted) ∧
      (∀ z : Decimal, z.length ≤ c.digits → z.value < r.value → 0 ≤ z.value ∨ Odd k →
        ((z.value + r.value) / 2) ^ k ≤ x.value) ∧
      (∀ z : Decimal, z.length ≤ c.digits → r.value < z.value →
        x.value ≤ ((r.value + z.value) / 2) ^ k) ∧
      ∀ z : Decimal, z.length ≤ c.digits → IsRealRoot k x.value z.value → z = r := by
  have hk0 : k ≠ 0 := by omega
  obtain ⟨ρ, hρ⟩ := exists_isRealRoot hk0 hsign
  obtain ⟨r, hl, hr, hroot⟩ := realRounds_root (c := c) hk0 hmax hsize hρ
  obtain ⟨hlow, hhigh⟩ := adjusted_root_bounds hk0 hx hρ hr
  rw [bounded?_eq_ite, if_neg (not_lt.mpr hlow)] at hroot
  refine ⟨ρ, r, hρ, hl, hr, hroot, hhigh, fun z hz hlt hodd => ?_, fun z hz hlt => ?_,
    fun z hz hexact => ?_⟩
  · have hpow := hρ.pow_le ?_ (hr.middle_le c.positive hz hlt)
    · exact_mod_cast hpow
    · refine hodd.imp_left fun hz0 => ?_
      have hz' : (0 : ℝ) ≤ z.value := by exact_mod_cast hz0
      have hlt' : (z.value : ℝ) < r.value := by exact_mod_cast hlt
      linarith
  · have hpow := hρ.le_pow (hr.le_middle c.positive hz hlt)
    exact_mod_cast hpow
  · have heq := hρ.unique hk0 hexact
    exact value_injective ((hr.le_of_le c.positive hz heq.ge).antisymm
      (hr.le_of_ge c.positive hz heq.le))

theorem root_isRealRounding_cube :
    let c := Context.ofDigits 28
    let x : Decimal := ⟨-1, 1, .inr (by decide)⟩
    ∃ (ρ : ℝ) (r : Decimal), ρ ^ 3 = -10 ∧ IsRealRounding 28 ρ r.value ∧ x.root 3 c = some r := by
  intro c x
  have hx : x.value = -10 := by norm_num [x, value]
  obtain ⟨ρ, r, hρ, -, hr, hroot, hhigh, -⟩ := root_isRealRounding x c (k := 3) (by decide)
    (by decide) (.inr (by decide)) (by decide +kernel) (by decide +kernel)
  refine ⟨ρ, r, ?_, hr, ?_⟩
  · rw [hρ.pow_eq, hx]
    norm_num
  · rw [hroot, if_neg (not_lt.mpr (hhigh (by decide)))]

/-- The root of order one is the number itself rounded, which may be carried above the range. -/
theorem root_one_eq_none :
    let c := Context.ofDigits 28
    let nines : Decimal := ⟨10 ^ 29 - 1, 8999999999999972, .inr (by decide)⟩
    nines.InRange ∧ 0 ≤ nines.value ∧ nines.rootShift 1 c < UInt32.size ∧
      ¬∃ r : Decimal, nines.root 1 c = some r ∧ IsRealRounding c.digits nines.value r.value := by
  intro c nines
  refine ⟨by decide +kernel, ?_, by decide +kernel, ?_⟩
  · exact mul_nonneg (by norm_num) (ten_zpow_pos _).le
  · rintro ⟨r, hr, -⟩
    have hnone : nines.root 1 c = none := by decide +kernel
    rw [hnone] at hr
    exact absurd hr (by simp)

end Decimal

end DeskCalculator
