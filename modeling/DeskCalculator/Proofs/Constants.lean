import DeskCalculator.Proofs.Approximation
import DeskCalculator.Proofs.Series

/-!
# Digits that are known

Only requests put digits into what is known of a constant, and each puts in the digits that it
computed. So whatever was asked before, the digits that are known are those of the computation
of their length, and their number is as small as the requests were. Digits that are cut off from a
longer value are as good as digits that are computed.
-/

set_option autoImplicit false

namespace DeskCalculator.FixedPoint

open DeskCalculator.Natural

/-- What is known has been computed. -/
def Computed (compute : ℕ → ℤ) (known : Option Longest) : Prop :=
  ∀ longest ∈ known, longest.value = compute longest.digits

/-- The digits that are known, and those computed beyond them, are counted in 32 bits. -/
def Counted (known : Option Longest) : Prop :=
  ∀ longest ∈ known, longest.digits + extraDigits < UInt32.size

variable {compute : ℕ → ℤ} {known : Option Longest}

/-- The digits of a request are computed, or cut off from more that were. -/
theorem request_eq (compute : ℕ → ℤ) (known : Option Longest) (digits : ℕ) :
    (∃ longest ∈ known, digits ≤ longest.digits ∧ request compute known digits =
      (longest.value.tdiv (powerOfTen (longest.digits - digits)), known)) ∨
    request compute known digits = (compute digits, some ⟨digits, compute digits⟩) := by
  unfold request
  split
  · next longest =>
    split
    · next h => exact .inl ⟨longest, rfl, h, rfl⟩
    · exact .inr rfl
  · exact .inr rfl

theorem Computed.request (h : Computed compute known) (digits : ℕ) :
    Computed compute (request compute known digits).2 := by
  rcases request_eq compute known digits with ⟨_, -, -, heq⟩ | heq <;> rw [heq]
  · exact h
  · rintro longest ⟨⟩
    rfl

theorem Counted.request (h : Counted known) {digits : ℕ}
    (hdigits : digits + extraDigits < UInt32.size) :
    Counted (request compute known digits).2 := by
  rcases request_eq compute known digits with ⟨_, -, -, heq⟩ | heq <;> rw [heq]
  · exact h
  · rintro longest ⟨⟩
    exact hdigits

theorem request_request (compute : ℕ → ℤ) (known : Option Longest) (digits : ℕ) :
    (request compute (request compute known digits).2 digits).1 =
      (request compute known digits).1 := by
  rcases request_eq compute known digits with ⟨longest, -, -, heq⟩ | heq
  · rw [heq, heq]
  · rw [heq, request, if_pos (Nat.le_refl digits)]
    show (compute digits).tdiv (powerOfTen (digits - digits)) = compute digits
    rw [Nat.sub_self]
    exact Int.tdiv_one _

def afterRequests (compute : ℕ → ℤ) (requests : List ℕ) : Option Longest :=
  requests.foldl (fun known digits => (request compute known digits).2) none

theorem computed_afterRequests (compute : ℕ → ℤ) (requests : List ℕ) :
    Computed compute (afterRequests compute requests) :=
  List.foldlRecOn requests _ (fun _ h => nomatch h) fun _ h digits _ => h.request digits

theorem counted_afterRequests (compute : ℕ → ℤ) {requests : List ℕ}
    (h : ∀ digits ∈ requests, digits + extraDigits < UInt32.size) :
    Counted (afterRequests compute requests) :=
  List.foldlRecOn requests _ (fun _ h => nomatch h) fun _ hknown digits hd =>
    hknown.request (h digits hd)

/-! ### How near the digits are -/

theorem abs_tdiv_tens_sub_le {z : ℤ} {κ : ℝ} {digits cut : ℕ}
    (h : |(z : ℝ) - κ * 10 ^ (digits + cut)| ≤ 10) :
    |((z.tdiv (tens cut) : ℤ) : ℝ) - κ * 10 ^ digits| ≤ 10 := by
  rw [pow_add, ← mul_assoc] at h
  rcases Nat.eq_zero_or_pos cut with rfl | hpos
  · rw [tens_zero, Nat.cast_one, Int.tdiv_one]
    rwa [pow_zero, mul_one] at h
  · have hten : ((tens cut : ℕ) : ℝ) = 10 ^ cut := cast_tens cut
    have hle : (10 : ℝ) ≤ 10 ^ cut := le_self_pow₀ (by norm_num) (by omega)
    have hcut := abs_tdiv_sub_le (tens_pos cut) (hten ▸ h)
    have hdiv : (10 : ℝ) / tens cut ≤ 1 := by
      rw [hten]
      exact div_le_one_of_le₀ hle (by positivity)
    linarith

/-- The digits of a request are as good, whether they are computed for it or cut off from digits
that were computed before. -/
theorem abs_request_sub_le {κ : ℝ}
    (hcompute : ∀ digits : ℕ, digits + extraDigits < UInt32.size →
      |(compute digits : ℝ) - κ * 10 ^ digits| ≤ 10)
    (hcomputed : Computed compute known) (hcounted : Counted known) {digits : ℕ}
    (hdigits : digits + extraDigits < UInt32.size) :
    |((request compute known digits).1 : ℝ) - κ * 10 ^ digits| ≤ 10 := by
  rcases request_eq compute known digits with ⟨longest, hmem, hle, heq⟩ | heq <;> rw [heq]
  · have hlongest := hcounted longest hmem
    obtain ⟨cut, hcut⟩ : ∃ cut, longest.digits = digits + cut := ⟨_, (Nat.add_sub_of_le hle).symm⟩
    have hoff := hcompute _ hlongest
    rw [← hcomputed longest hmem, hcut] at hoff
    simp only [hcut, Nat.add_sub_cancel_left]
    rw [powerOfTen_eq cut (by omega)]
    exact abs_tdiv_tens_sub_le hoff
  · exact hcompute digits hdigits

/-! ### The circle constant is not negative -/

theorem le_alternating_inverseTerms (q : ℕ) (positive : 0 < q) (scale power k : ℕ) :
    ((scale / (power * (2 * k + 1)) : ℕ) : ℤ) - (scale / (power * (q * q) * (2 * (k + 1) + 1)) : ℕ) ≤
      alternating (inverseTerms q positive scale power k) := by
  rw [inverseTerms]
  split
  · next last =>
    rw [last, alternating]
    exact Int.sub_le_self _ (Int.natCast_nonneg _)
  · have hrest := (alternating_inverseTerms q positive scale (power * (q * q)) (k + 1)).2
    rw [alternating]
    omega

/-- `16 arctan (1/5) - 4 arctan (1/239)`, before the digits beyond those asked for are dropped. -/
def machinSum (scale : ℕ) : ℤ :=
  16 * arctanInverse 5 (Nat.le_add_left 1 4) scale -
    4 * arctanInverse 239 (Nat.le_add_left 1 238) scale

theorem computePi_eq (digits : ℕ) : computePi digits =
    (machinSum (powerOfTen (digits + extraDigits))).tdiv (tens extraDigits) := rfl

theorem machinSum_nonneg (scale : ℕ) : 0 ≤ machinSum scale := by
  have h5 := le_alternating_inverseTerms 5 (by decide) scale 5 0
  have h239 := (alternating_inverseTerms 239 (by decide) scale 239 0).2
  rw [machinSum, arctanInverse, arctanInverse]
  omega

theorem computePi_nonneg (digits : ℕ) : 0 ≤ computePi digits := by
  rw [computePi_eq]
  exact Int.tdiv_nonneg (machinSum_nonneg _) (Int.natCast_nonneg _)

theorem piDigits_nonneg {known : Constants} (h : Computed computePi known.pi) (digits : ℕ) :
    0 ≤ known.piDigits digits := by
  rw [Constants.piDigits]
  rcases request_eq computePi known.pi digits with ⟨longest, hmem, -, heq⟩ | heq <;> rw [heq]
  · rw [h longest hmem]
    exact Int.tdiv_nonneg (computePi_nonneg _) (Int.natCast_nonneg _)
  · exact computePi_nonneg digits

end DeskCalculator.FixedPoint
