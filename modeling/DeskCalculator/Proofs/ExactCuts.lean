import DeskCalculator.Proofs.AngleUnit
import DeskCalculator.Proofs.Requests
import DeskCalculator.Proofs.SeriesLoops

/-!
# Where cutting digits off is exact

A request may be answered by cutting digits off a longer value. That is the same as computing the
digits afresh if both round down the same integer, and they do unless the digits after the cut begin
with many zeros or nines: what is dropped at the end of either computation comes to less than a
hundred thousandth of the last digit kept. In the first few thousand digits of the two constants
five nines in a row stand only where the circle constant has six, and there the digits are those of
the longer value all the same.
-/

set_option autoImplicit false

namespace DeskCalculator.FixedPoint

open DeskCalculator.Natural

variable {compute : ℕ → ℤ} {limit : ℕ}

/-- Up to `limit` digits, digits that are cut off a longer value are those that are computed. -/
def Cuts (compute : ℕ → ℤ) (limit : ℕ) : Prop :=
  ∀ digits cut, digits + cut ≤ limit →
    (compute (digits + cut)).tdiv (powerOfTen cut) = compute digits

theorem cuts_of_forall_eq {many : ℕ} (value : ℕ) (hmany : many < UInt32.size) (hlimit : limit ≤ many)
    (h : ∀ digits ≤ limit, compute digits = (value / 10 ^ (many - digits) : ℕ)) :
    Cuts compute limit := by
  intro digits cut hle
  rw [h _ hle, h digits (by omega), powerOfTen_eq cut (by omega), tens_eq_pow, ← Int.ofNat_tdiv,
    Nat.div_div_eq_div_mul, ← pow_add, show many - (digits + cut) + cut = many - digits by omega]

/-- Five of the last `rest + 10` digits of a value are neither all zeros nor all nines: the first
ones. -/
def ClearAfter (value rest : ℕ) : Prop :=
  10 ^ (rest + 5) ≤ value % 10 ^ (rest + 10) ∧
    value % 10 ^ (rest + 10) + 10 ^ (rest + 5) < 10 ^ (rest + 10)

instance (value rest : ℕ) : Decidable (ClearAfter value rest) := inferInstanceAs (Decidable (_ ∧ _))

theorem tdiv_eq_of_near {κ : ℝ} {near : ℤ} {value digits rest : ℕ} (hrest : 0 < rest)
    (hnonneg : 0 ≤ near)
    (hnear : |(near : ℝ) - κ * 10 ^ (digits + extraDigits)| ≤ 10 ^ 5 - 1)
    (hvalue : |(value : ℝ) - κ * 10 ^ (digits + extraDigits + rest)| ≤ 10)
    (hclear : ClearAfter value rest) :
    near.tdiv (tens extraDigits) = (value / 10 ^ (rest + 10) : ℕ) := by
  obtain ⟨hzeros, hnines⟩ := hclear
  have hextra : ((tens extraDigits : ℕ) : ℤ) = 10 ^ 10 := by decide
  have hten : (10 : ℝ) ≤ 10 ^ rest := le_self_pow₀ (by norm_num) hrest.ne'
  have hreal : |((near * 10 ^ rest - value : ℤ) : ℝ)| ≤ ((10 ^ (rest + 5) : ℤ) : ℝ) := by
    obtain ⟨hlow, hhigh⟩ := abs_le.mp hnear
    obtain ⟨hlow', hhigh'⟩ := abs_le.mp hvalue
    rw [pow_add _ (digits + extraDigits), ← mul_assoc] at hlow' hhigh'
    push_cast
    rw [abs_le, pow_add]
    constructor <;> nlinarith
  have hoff : |near * 10 ^ rest - value| ≤ 10 ^ (rest + 5) := by exact_mod_cast hreal
  obtain ⟨hlow, hhigh⟩ := abs_le.mp hoff
  have hsplit := Nat.div_add_mod value (10 ^ (rest + 10))
  generalize value / 10 ^ (rest + 10) = k at *
  generalize value % 10 ^ (rest + 10) = r at *
  have hpow : (10 : ℤ) ^ (rest + 10) = 10 ^ 10 * 10 ^ rest := by rw [pow_add, mul_comm]
  have hscale : (0 : ℤ) < 10 ^ rest := by positivity
  zify at hsplit hzeros hnines
  rw [hpow] at hsplit hnines
  have hle : (k : ℤ) * 10 ^ 10 ≤ near := le_of_mul_le_mul_right (by linarith) hscale
  have hlt : near < (k + 1) * 10 ^ 10 := lt_of_mul_lt_mul_right (by linarith) hscale.le
  rw [hextra, Int.tdiv_eq_ediv_of_nonneg hnonneg]
  omega

theorem cuts_of_clear {κ : ℝ} {many value : ℕ} (hmany : many < UInt32.size)
    (hlimit : limit + extraDigits < many)
    (hnear : ∀ digits ≤ limit, ∃ near : ℤ, 0 ≤ near ∧
      |(near : ℝ) - κ * 10 ^ (digits + extraDigits)| ≤ 10 ^ 5 - 1 ∧
      compute digits = near.tdiv (tens extraDigits))
    (hvalue : |(value : ℝ) - κ * 10 ^ many| ≤ 10)
    (hclear : ∀ digits ≤ limit, ClearAfter value (many - (digits + extraDigits)) ∨
      compute digits = (value / 10 ^ (many - digits) : ℕ)) : Cuts compute limit := by
  refine cuts_of_forall_eq value hmany (by omega) fun digits hdigits => ?_
  rcases hclear digits hdigits with hclear | hequal
  · obtain ⟨near, hnonneg, hnear, hcompute⟩ := hnear digits hdigits
    obtain ⟨rest, hrest⟩ : ∃ rest, many = digits + extraDigits + rest :=
      ⟨_, (Nat.add_sub_of_le (by omega)).symm⟩
    have hcount : many - (digits + extraDigits) = rest := by omega
    have hplaces : many - digits = rest + 10 := by
      rw [hrest, extraDigits]
      omega
    rw [hcount] at hclear
    rw [hrest] at hvalue
    rw [hcompute, hplaces]
    exact tdiv_eq_of_near (by omega) hnonneg hnear hvalue hclear
  · exact hequal

/-- A range in blocks. -/
theorem forall_lt_of_blocks {P : ℕ → Prop} {blocks size : ℕ}
    (h : ∀ block < blocks, ∀ i < size, P (size * block + i)) : ∀ k < size * blocks, P k := by
  intro k hk
  have hsize : 0 < size := Nat.pos_of_mul_pos_right ((Nat.zero_le k).trans_lt hk)
  rw [← Nat.div_add_mod k size]
  exact h _ (Nat.div_lt_of_lt_mul hk) _ (Nat.mod_lt k hsize)

/-! ### Long sums -/

section

variable {q scale n : ℕ}

/-- The `k`-th term of a series in inverse powers. -/
def inverseQuotient (q scale k : ℕ) : ℕ := scale / (q ^ (2 * k + 1) * (2 * k + 1))

theorem inverseQuotient_anti (positive : 0 < q) {j k : ℕ} (h : j ≤ k) :
    inverseQuotient q scale k ≤ inverseQuotient q scale j := by
  refine Nat.div_le_div_left (Nat.mul_le_mul ?_ (by omega)) (by positivity)
  exact Nat.pow_le_pow_right positive (by omega)

theorem inverseTerms_eq (positive : 0 < q) (scale k : ℕ) :
    inverseTerms q positive scale (q ^ (2 * k + 1)) k =
      if inverseQuotient q scale k = 0 then []
      else inverseQuotient q scale k ::
        inverseTerms q positive scale (q ^ (2 * (k + 1) + 1)) (k + 1) := by
  have hnext : q ^ (2 * k + 1) * (q * q) = q ^ (2 * (k + 1) + 1) := by ring
  rw [inverseTerms, dite_eq_ite, hnext]
  rfl

theorem signedSum_inverseTerms (positive : 0 < q) (δ : ℤˣ) (k : ℕ)
    (h : inverseQuotient q scale (k + n) = 0) :
    signedSum δ (inverseTerms q positive scale (q ^ (2 * k + 1)) k) =
      ∑ i ∈ Finset.range n, ((δ ^ i : ℤˣ) : ℤ) * inverseQuotient q scale (k + i) := by
  induction n generalizing k with
  | zero =>
    rw [add_zero] at h
    rw [inverseTerms_eq, if_pos h]
    rfl
  | succ n ih =>
    rw [inverseTerms_eq]
    split
    · next hzero =>
      have hall : ∀ i, inverseQuotient q scale (k + i) = 0 := fun i =>
        Nat.le_zero.mp (hzero ▸ inverseQuotient_anti positive (Nat.le_add_right k i))
      simp [hall, signedSum]
    · have hrest := ih (k + 1) (by rwa [show k + 1 + n = k + (n + 1) by omega])
      rw [signedSum, hrest, Finset.sum_range_succ', Finset.mul_sum, add_comm, pow_zero,
        Units.val_one, one_mul, add_zero]
      congr 1
      refine Finset.sum_congr rfl fun i _ => ?_
      rw [show k + 1 + i = k + (i + 1) by omega, pow_succ']
      push_cast
      ring

/-- A sum over `2 ^ depth` numbers, by halves. -/
def sumByHalves (f : ℕ → ℤ) : ℕ → ℕ → ℤ
  | 0, first => f first
  | depth + 1, first => sumByHalves f depth first + sumByHalves f depth (first + 2 ^ depth)

theorem sumByHalves_eq (f : ℕ → ℤ) (depth first : ℕ) :
    sumByHalves f depth first = ∑ i ∈ Finset.range (2 ^ depth), f (first + i) := by
  induction depth generalizing first with
  | zero => simp [sumByHalves]
  | succ depth ih =>
    rw [sumByHalves, ih, ih, pow_succ, mul_two, Finset.sum_range_add]
    simp only [add_assoc]

/-- The sum of a series in inverse powers with signs that alternate or do not. -/
def inverseSum (alternates : Bool) (q scale depth : ℕ) : ℤ :=
  sumByHalves (fun k => if alternates ∧ k % 2 = 1 then -(inverseQuotient q scale k : ℤ)
    else inverseQuotient q scale k) depth 0

theorem inverseSum_eq (positive : 0 < q) (alternates : Bool) {depth : ℕ}
    (h : inverseQuotient q scale (2 ^ depth) = 0) :
    signedSum (alternation alternates) (inverseTerms q positive scale q 0) =
      inverseSum alternates q scale depth := by
  have hsum := signedSum_inverseTerms positive (alternation alternates) 0
    (show inverseQuotient q scale (0 + 2 ^ depth) = 0 by rwa [Nat.zero_add])
  rw [Nat.mul_zero, Nat.zero_add, pow_one] at hsum
  rw [hsum, inverseSum, sumByHalves_eq]
  exact Finset.sum_congr rfl fun i _ => by rw [alternation_pow_mul, Nat.zero_add]

end

/-! ### The circle constant -/

def circleSum (digits depth depth' : ℕ) : ℤ :=
  (16 * inverseSum true 5 (tens (digits + 10)) depth -
    4 * inverseSum true 239 (tens (digits + 10)) depth').tdiv (tens 10)

theorem computePi_eq_circleSum {digits depth depth' : ℕ} (hdigits : digits + 10 < UInt32.size)
    (h5 : inverseQuotient 5 (tens (digits + 10)) (2 ^ depth) = 0)
    (h239 : inverseQuotient 239 (tens (digits + 10)) (2 ^ depth') = 0) :
    computePi digits = circleSum digits depth depth' := by
  have hscale : powerOfTen (digits + extraDigits) = tens (digits + 10) := powerOfTen_eq _ hdigits
  rw [computePi, arctanInverse, arctanInverse, hscale, ← signedSum_neg_one, ← signedSum_neg_one,
    circleSum, ← inverseSum_eq (by decide) true h5, ← inverseSum_eq (by decide) true h239]
  rfl

def circleDigits : ℕ := (circleSum 3580 12 10).toNat

theorem computePi_eq_circleDigits : computePi 3580 = circleDigits := by
  have hsum : computePi 3580 = circleSum 3580 12 10 :=
    computePi_eq_circleSum (by decide) (by decide +kernel) (by decide +kernel)
  rw [circleDigits, ← hsum, Int.toNat_of_nonneg (computePi_nonneg _)]

theorem circleDigits_rest : ∀ rest < 60 * 60, rest ∉ [2808, 2809] →
    ClearAfter circleDigits rest ∨ 3571 ≤ rest :=
  forall_lt_of_blocks (by decide +kernel)

/-- Six nines stand among the digits there, so the sums that end before them are taken as well. -/
theorem circleDigits_exceptions : ∀ digits ∈ [761, 762],
    inverseQuotient 5 (tens (digits + 10)) (2 ^ 10) = 0 ∧
      inverseQuotient 239 (tens (digits + 10)) (2 ^ 8) = 0 ∧
      circleSum digits 10 8 = (circleDigits / 10 ^ (3580 - digits) : ℕ) := by
  decide +kernel

theorem cuts_computePi : Cuts computePi 3560 := by
  have hextra : extraDigits = 10 := rfl
  have hvalue := abs_computePi_sub_le (show 3580 + extraDigits < UInt32.size by decide)
  rw [computePi_eq_circleDigits, Int.cast_natCast] at hvalue
  refine cuts_of_clear (by decide) (by decide) (fun digits hdigits => ?_) hvalue
    fun digits hdigits => ?_
  · have hpow : powerOfTen (digits + extraDigits) = 10 ^ (digits + extraDigits) :=
      powerOfTen_eq _ (by rw [hextra, UInt32.size]; omega)
    refine ⟨_, machinSum_nonneg _, ?_, computePi_eq digits⟩
    have hsum := abs_machinSum_sub_le hpow.le
    have hcount : (digits : ℝ) ≤ 3560 := by exact_mod_cast hdigits
    rw [hpow] at hsum ⊢
    rw [Nat.cast_pow, Nat.cast_ofNat] at hsum
    refine hsum.trans ?_
    rw [hextra]
    push_cast
    linarith
  · by_cases hexception : digits ∈ [761, 762]
    · obtain ⟨h5, h239, hsum⟩ := circleDigits_exceptions digits hexception
      have hcounted : digits + 10 < UInt32.size := by
        rw [UInt32.size]
        omega
      exact .inr ((computePi_eq_circleSum hcounted h5 h239).trans hsum)
    · refine .inl ((circleDigits_rest _ (by omega) ?_).resolve_right (by omega))
      simp only [List.mem_cons, List.not_mem_nil, or_false] at hexception ⊢
      omega

/-! ### The logarithm of ten -/

def logTenSum (digits depth depth' : ℕ) : ℤ :=
  (6 * inverseSum false 3 (tens (digits + 10)) depth +
    2 * inverseSum false 9 (tens (digits + 10)) depth').tdiv (tens 10)

theorem computeLn10_eq_logTenSum {digits depth depth' : ℕ} (hdigits : digits + 10 < UInt32.size)
    (h3 : inverseQuotient 3 (tens (digits + 10)) (2 ^ depth) = 0)
    (h9 : inverseQuotient 9 (tens (digits + 10)) (2 ^ depth') = 0) :
    computeLn10 digits = logTenSum digits depth depth' := by
  have hscale : powerOfTen (digits + extraDigits) = tens (digits + 10) := powerOfTen_eq _ hdigits
  rw [computeLn10, artanhInverse, artanhInverse, hscale]
  push_cast
  rw [← signedSum_one, ← signedSum_one, logTenSum, ← inverseSum_eq (by decide) false h3,
    ← inverseSum_eq (by decide) false h9, ← mul_assoc]
  rfl

def logTenDigits : ℕ := (logTenSum 3580 12 11).toNat

theorem computeLn10_eq_logTenDigits : computeLn10 3580 = logTenDigits := by
  have hsum : computeLn10 3580 = logTenSum 3580 12 11 :=
    computeLn10_eq_logTenSum (by decide) (by decide +kernel) (by decide +kernel)
  rw [logTenDigits, ← hsum, Int.toNat_of_nonneg (computeLn10_bounds _).1]

theorem logTenDigits_rest : ∀ rest < 60 * 60, ClearAfter logTenDigits rest ∨ 3571 ≤ rest :=
  forall_lt_of_blocks (by decide +kernel)

theorem cuts_computeLn10 : Cuts computeLn10 3560 := by
  have hextra : extraDigits = 10 := rfl
  have hvalue := abs_computeLn10_sub_le (show 3580 + extraDigits < UInt32.size by decide)
  rw [computeLn10_eq_logTenDigits, Int.cast_natCast] at hvalue
  refine cuts_of_clear (by decide) (by decide) (fun digits hdigits => ?_) hvalue
    fun digits hdigits => ?_
  · have hpow : powerOfTen (digits + extraDigits) = 10 ^ (digits + extraDigits) :=
      powerOfTen_eq _ (by rw [hextra, UInt32.size]; omega)
    refine ⟨_, Int.natCast_nonneg _, ?_, rfl⟩
    obtain ⟨hlow, hhigh⟩ := artanhInverse_sum_bounds hpow.le
    have hcount : (digits : ℝ) ≤ 3560 := by exact_mod_cast hdigits
    rw [hpow] at hlow hhigh ⊢
    generalize 3 * (2 * artanhInverse 3 _ _) + 2 * artanhInverse 9 _ _ = sum at *
    rw [hextra] at *
    push_cast at *
    rw [abs_le]
    constructor <;> linarith
  · exact .inl ((logTenDigits_rest _ (by omega)).resolve_right (by omega))

end DeskCalculator.FixedPoint
