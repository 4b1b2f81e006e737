import DeskCalculator.Proofs.LogarithmOfTen

/-!
# Answers do not depend on earlier requests

Of all the digits of a constant that were computed, those of the largest request are kept, and a
smaller request is answered by cutting digits off. Before the digits beyond those asked for are
dropped, a computed value is off by less than a quarter of a unit of the last digit asked for. So what
is cut off from a longer value and what is computed afresh round down numbers that are less than a
unit apart, and the answers differ by one unit at most.
-/

set_option autoImplicit false

namespace DeskCalculator.FixedPoint

open DeskCalculator.Natural

variable {compute : ℕ → ℤ} {known : Option Longest} {requests : List ℕ} {digits cut limit : ℕ}
  {κ : ℝ} {value long short : ℤ}

/-! ### What is kept -/

def answers (compute : ℕ → ℤ) : Option Longest → List ℕ → List ℤ
  | _, [] => []
  | known, digits :: rest =>
    (request compute known digits).1 :: answers compute (request compute known digits).2 rest

/-- What is kept after some requests is what was computed for the largest of them. -/
def KeepsLargest (compute : ℕ → ℤ) (requests : List ℕ) : Option Longest → Prop
  | none => requests = []
  | some longest => longest.digits ∈ requests ∧ (∀ digits ∈ requests, digits ≤ longest.digits) ∧
      longest.value = compute longest.digits

theorem KeepsLargest.request (h : KeepsLargest compute requests known) (digits : ℕ) :
    KeepsLargest compute (requests ++ [digits]) (request compute known digits).2 := by
  cases known with
  | none =>
    obtain rfl : requests = [] := h
    simp [FixedPoint.request, computeAndKeep, KeepsLargest]
  | some longest =>
    obtain ⟨hmem, hle, hvalue⟩ := h
    by_cases hd : digits ≤ longest.digits
    · simp only [FixedPoint.request, if_pos hd, KeepsLargest]
      refine ⟨List.mem_append_left _ hmem, fun other hother => ?_, hvalue⟩
      rcases List.mem_append.mp hother with hother | hother
      · exact hle other hother
      · rwa [List.mem_singleton.mp hother]
    · simp only [FixedPoint.request, if_neg hd, computeAndKeep, KeepsLargest, and_true]
      refine ⟨by simp, fun other hother => ?_⟩
      rcases List.mem_append.mp hother with hother | hother
      · exact (hle other hother).trans (not_le.mp hd).le
      · exact (List.mem_singleton.mp hother).le

theorem keepsLargest_afterRequests (compute : ℕ → ℤ) (requests : List ℕ) :
    KeepsLargest compute requests (afterRequests compute requests) := by
  induction requests using List.reverseRecOn with
  | nil => rfl
  | append_singleton requests digits ih =>
    rw [afterRequests, List.foldl_append]
    exact ih.request digits

/-! ### How near answers are -/

/-- A value with the extra digits still on it is near `κ`. -/
structure IsNear (κ : ℝ) (digits : ℕ) (value : ℤ) : Prop where
  nonneg : 0 ≤ value
  near : |(value : ℝ) - κ * 10 ^ (digits + extraDigits)| ≤ 10 ^ extraDigits / 4

def Approximates (κ : ℝ) (compute : ℕ → ℤ) (limit : ℕ) : Prop :=
  ∀ digits ≤ limit, ∃ value, IsNear κ digits value ∧ compute digits = value.tdiv (tens extraDigits)

theorem floor_bounds (h : 0 ≤ value) {d : ℕ} (hd : 0 < d) :
    ((value.tdiv d : ℤ) : ℝ) ≤ value / d ∧ (value : ℝ) / d < (value.tdiv d : ℤ) + 1 := by
  have hdr : (0 : ℝ) < d := by exact_mod_cast hd
  have hdz : (0 : ℤ) < d := by exact_mod_cast hd
  rw [Int.tdiv_eq_ediv_of_nonneg h, le_div_iff₀ hdr, div_lt_iff₀ hdr]
  constructor
  · exact_mod_cast Int.ediv_mul_le value hdz.ne'
  · exact_mod_cast Int.lt_ediv_add_one_mul_self value hdz

theorem IsNear.abs_div_sub_le (h : IsNear κ (digits + cut) value) :
    |(value : ℝ) / (tens (extraDigits + cut) : ℕ) - κ * 10 ^ digits| ≤ 1 / 4 := by
  have hcut : (1 : ℝ) ≤ 10 ^ cut := one_le_pow₀ (by norm_num)
  have hextra : (0 : ℝ) < 10 ^ extraDigits := by positivity
  have hpos : (0 : ℝ) < 10 ^ (extraDigits + cut) := by positivity
  have hscale : κ * 10 ^ (digits + cut + extraDigits) =
      κ * 10 ^ digits * 10 ^ (extraDigits + cut) := by
    ring
  have hquarter : (10 : ℝ) ^ extraDigits / 4 ≤ 1 / 4 * 10 ^ (extraDigits + cut) := by
    rw [pow_add]
    nlinarith
  rw [cast_tens, div_sub' hpos.ne', abs_div, abs_of_pos hpos, div_le_iff₀ hpos, mul_comm _ (κ * _),
    ← hscale]
  exact h.near.trans hquarter

theorem abs_cut_sub_le (hlong : IsNear κ (digits + cut) long) (hshort : IsNear κ digits short) :
    |(long.tdiv (tens extraDigits)).tdiv (tens cut) - short.tdiv (tens extraDigits)| ≤ 1 := by
  have htwice : (long.tdiv (tens extraDigits)).tdiv (tens cut) =
      long.tdiv (tens (extraDigits + cut)) := by
    have hquotient : 0 ≤ long.tdiv (tens extraDigits) :=
      Int.tdiv_nonneg hlong.nonneg (Int.natCast_nonneg _)
    rw [Int.tdiv_eq_ediv_of_nonneg hquotient, Int.tdiv_eq_ediv_of_nonneg hlong.nonneg,
      Int.tdiv_eq_ediv_of_nonneg hlong.nonneg, tens_add, Nat.cast_mul,
      Int.ediv_ediv_of_nonneg (Int.natCast_nonneg _)]
  obtain ⟨hlow, hhigh⟩ := floor_bounds hlong.nonneg (tens_pos (extraDigits + cut))
  obtain ⟨hlow', hhigh'⟩ := floor_bounds hshort.nonneg (tens_pos extraDigits)
  have hoff := abs_le.mp hlong.abs_div_sub_le
  have huncut : IsNear κ (digits + 0) short := hshort
  have hoff' := abs_le.mp huncut.abs_div_sub_le
  rw [Nat.add_zero] at hoff'
  rw [htwice, abs_le]
  generalize long.tdiv (tens (extraDigits + cut)) = first at *
  generalize short.tdiv (tens extraDigits) = second at *
  have hless : (first : ℝ) < second + 2 := by linarith
  have hmore : (second : ℝ) < first + 2 := by linarith
  norm_cast at hless hmore
  omega

/-! ### Requests in a row -/

/-- One request: what it answers is one unit off at most from what is computed afresh. -/
theorem Approximates.abs_request_sub_le (h : Approximates κ compute limit)
    (hlimit : limit < UInt32.size) (hkeeps : KeepsLargest compute requests known)
    (hrequests : ∀ digits ∈ requests, digits ≤ limit) (hdigits : digits ≤ limit) :
    |(request compute known digits).1 - compute digits| ≤ 1 := by
  rcases request_eq compute known digits with ⟨longest, hmem, hle, heq⟩ | heq <;> rw [heq]
  · obtain rfl : known = some longest := hmem
    obtain ⟨hasked, -, hvalue⟩ := hkeeps
    have hlongest := hrequests _ hasked
    obtain ⟨cut, hcut⟩ : ∃ cut, longest.digits = digits + cut := ⟨_, (Nat.add_sub_of_le hle).symm⟩
    obtain ⟨long, hlong, hcomputed⟩ := h _ hlongest
    obtain ⟨short, hshort, hfresh⟩ := h _ hdigits
    have hcount : longest.digits - digits = cut := by omega
    simp only [hvalue, hcomputed, hfresh, hcount]
    rw [powerOfTen_eq cut (by omega)]
    exact abs_cut_sub_le (hcut ▸ hlong) hshort
  · simp

theorem Approximates.forall_answers (h : Approximates κ compute limit)
    (hlimit : limit < UInt32.size) {past : List ℕ} (hkeeps : KeepsLargest compute past known)
    (hpast : ∀ digits ∈ past, digits ≤ limit) (hrequests : ∀ digits ∈ requests, digits ≤ limit) :
    List.Forall₂ (fun digits answer => |answer - compute digits| ≤ 1) requests
      (answers compute known requests) := by
  induction requests generalizing known past with
  | nil => exact .nil
  | cons digits rest ih =>
    simp only [List.forall_mem_cons] at hrequests
    apply List.Forall₂.cons
    · exact h.abs_request_sub_le hlimit hkeeps hpast hrequests.1
    · apply ih (hkeeps.request digits) _ hrequests.2
      simpa [or_imp, forall_and] using ⟨hpast, hrequests.1⟩

/-! ### The two constants -/

theorem approximates_computePi : Approximates Real.pi computePi (10 ^ 8) := by
  intro digits hdigits
  have hpow : powerOfTen (digits + extraDigits) = 10 ^ (digits + extraDigits) :=
    powerOfTen_eq _ (by rw [extraDigits, UInt32.size]; omega)
  have hsum := abs_machinSum_sub_le hpow.le
  refine ⟨_, ⟨machinSum_nonneg _, ?_⟩, computePi_eq digits⟩
  have hcount : (digits : ℝ) ≤ 10 ^ 8 := by exact_mod_cast hdigits
  rw [hpow] at hsum ⊢
  rw [Nat.cast_pow, Nat.cast_ofNat] at hsum
  refine hsum.trans ?_
  rw [extraDigits]
  push_cast
  linarith

theorem approximates_computeLn10 : Approximates (Real.log 10) computeLn10 (10 ^ 8) := by
  intro digits hdigits
  have hpow : powerOfTen (digits + extraDigits) = 10 ^ (digits + extraDigits) :=
    powerOfTen_eq _ (by rw [extraDigits, UInt32.size]; omega)
  obtain ⟨hlow, hhigh⟩ := artanhInverse_sum_bounds hpow.le
  refine ⟨_, ⟨Int.natCast_nonneg _, ?_⟩, rfl⟩
  have hcount : (digits : ℝ) ≤ 10 ^ 8 := by exact_mod_cast hdigits
  rw [hpow] at hlow hhigh ⊢
  generalize 3 * (2 * artanhInverse 3 _ _) + 2 * artanhInverse 9 _ _ = sum at *
  rw [extraDigits] at *
  push_cast at *
  rw [abs_le]
  constructor <;> linarith

/-- Whatever was asked before, an answer is one unit off at most from what is computed afresh, and
what is kept is what was computed for the largest request. -/
theorem answers_near_computed (hcompute : compute = computePi ∨ compute = computeLn10)
    (h : ∀ digits ∈ requests, digits ≤ 10 ^ 8) :
    List.Forall₂ (fun digits answer => |answer - compute digits| ≤ 1) requests
        (answers compute none requests) ∧
      ∀ past, past <+: requests → KeepsLargest compute past (afterRequests compute past) := by
  have hlimit : 10 ^ 8 < UInt32.size := by decide
  have hnone : KeepsLargest compute [] none := rfl
  refine ⟨?_, fun past _ => keepsLargest_afterRequests compute past⟩
  rcases hcompute with rfl | rfl
  · exact approximates_computePi.forall_answers hlimit hnone (by simp) h
  · exact approximates_computeLn10.forall_answers hlimit hnone (by simp) h

theorem answers_near_computed_instance :
    (∀ digits ∈ [3, 12, 7, 12], digits ≤ 10 ^ 8) ∧
      List.Forall₂ (fun digits answer => |answer - computePi digits| ≤ 1) [3, 12, 7, 12]
        (answers computePi none [3, 12, 7, 12]) ∧
      KeepsLargest computeLn10 [3, 12, 7] (afterRequests computeLn10 [3, 12, 7]) := by
  have h : ∀ digits ∈ [3, 12, 7, 12], digits ≤ 10 ^ 8 := by decide
  exact ⟨h, (answers_near_computed (.inl rfl) h).1,
    (answers_near_computed (.inr rfl) h).2 _ ⟨[12], rfl⟩⟩

end DeskCalculator.FixedPoint
