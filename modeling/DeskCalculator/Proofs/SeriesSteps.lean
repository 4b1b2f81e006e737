import DeskCalculator.FixedPoint.Circular
import DeskCalculator.FixedPoint.Constants
import DeskCalculator.FixedPoint.Exponential
import DeskCalculator.Proofs.CircleConstant
import DeskCalculator.Proofs.Primitive

/-!
# The steps of the functions on scaled integers

The series, the constants and the functions that are computed with them, as steps over primitives,
with a proof for each that its steps realize it. A scale is a power of ten, so it divides; what a
square root is taken of is a sum of squares, or a product of numbers that are not negative.
-/

set_option autoImplicit false

namespace DeskCalculator.FixedPoint

open DeskCalculator.Natural DeskCalculator.Steps

/-! ### Series -/

def factorialTermsSteps (ratio scale : Nat) (divisor : Nat → Nat) (grows : ∀ n, n ≤ divisor n)
    (n t : Nat) : Steps (List Nat) := do
  let ⟨scaled, _⟩ ← natQuotient (t * ratio) scale
  let ⟨next, _⟩ ← natQuotient scaled (divisor n)
  if last : next = 0 then return []
  else do
    let rest ← factorialTermsSteps ratio scale divisor grows (n + 1) next
    return next :: rest
termination_by (factorialTerms ratio scale divisor grows n t).length
decreasing_by
  subst_vars
  conv => rhs; rw [factorialTerms, dif_neg last]
  exact Nat.lt_succ_self _

def oddTermsSteps (ratio scale : Nat) (small : ratio ≤ scale) (k p : Nat) : Steps (List Nat) := do
  let ⟨q, _⟩ ← natQuotient (p * ratio) scale
  let ⟨t, _⟩ ← natQuotient q (2 * k + 1)
  if last : t = 0 then return []
  else do
    let rest ← oddTermsSteps ratio scale small (k + 1) q
    return t :: rest
termination_by (oddTerms ratio scale small k p).length
decreasing_by
  subst_vars
  conv => rhs; rw [oddTerms, dif_neg last]
  exact Nat.lt_succ_self _

def inverseTermsSteps (q : Nat) (positive : 0 < q) (scale power k : Nat) : Steps (List Nat) := do
  let ⟨term, _⟩ ← natQuotient scale (power * (2 * k + 1))
  if last : term = 0 then return []
  else do
    let rest ← inverseTermsSteps q positive scale (power * (q * q)) (k + 1)
    return term :: rest
termination_by (inverseTerms q positive scale power k).length
decreasing_by
  subst_vars
  conv => rhs; rw [inverseTerms, dif_neg last]
  exact Nat.lt_succ_self _

theorem realizes_factorialTerms {ratio scale : Nat} (hscale : scale ≠ 0) (divisor : Nat → Nat)
    (grows : ∀ n, n ≤ divisor n) {n : Nat} (hn : n ≠ 0) (t : Nat) :
    Realizes (factorialTermsSteps ratio scale divisor grows n t)
      (.ok (factorialTerms ratio scale divisor grows n t)) := by
  have hdivisor : ∀ {n : Nat}, n ≠ 0 → divisor n ≠ 0 := fun {n} hn h => by
    have hle := grows n
    omega
  induction n, t using factorialTerms.induct ratio scale divisor grows with
  | case1 n t next last =>
    rw [factorialTermsSteps, factorialTerms, dif_pos last]
    refine realizes_natQuotient hscale (realizes_natQuotient (hdivisor hn) ?_)
    simp only
    rw [dif_pos last]
    exact realizes_ok _
  | case2 n t next last ih =>
    rw [factorialTermsSteps, factorialTerms, dif_neg last]
    refine realizes_natQuotient hscale (realizes_natQuotient (hdivisor hn) ?_)
    simp only
    rw [dif_neg last]
    exact (ih (Nat.succ_ne_zero n)).pass fun _ => realizes_ok _

theorem realizes_oddTerms {ratio scale : Nat} (hscale : scale ≠ 0) (small : ratio ≤ scale)
    (k p : Nat) :
    Realizes (oddTermsSteps ratio scale small k p) (.ok (oddTerms ratio scale small k p)) := by
  induction k, p using oddTerms.induct ratio scale small with
  | case1 k p q t last =>
    rw [oddTermsSteps, oddTerms, dif_pos last]
    refine realizes_natQuotient hscale (realizes_natQuotient (Nat.succ_ne_zero _) ?_)
    simp only
    rw [dif_pos last]
    exact realizes_ok _
  | case2 k p q t last ih =>
    rw [oddTermsSteps, oddTerms, dif_neg last]
    refine realizes_natQuotient hscale (realizes_natQuotient (Nat.succ_ne_zero _) ?_)
    simp only
    rw [dif_neg last]
    exact ih.pass fun _ => realizes_ok _

theorem realizes_inverseTerms (q : Nat) (positive : 0 < q) (scale : Nat) {power : Nat}
    (hpower : power ≠ 0) (k : Nat) :
    Realizes (inverseTermsSteps q positive scale power k)
      (.ok (inverseTerms q positive scale power k)) := by
  have hdivisor : ∀ {power : Nat}, power ≠ 0 → ∀ k, power * (2 * k + 1) ≠ 0 :=
    fun hpower k => Nat.mul_ne_zero hpower (Nat.succ_ne_zero _)
  induction power, k using inverseTerms.induct q positive scale with
  | case1 power k term last =>
    rw [inverseTermsSteps, inverseTerms, dif_pos last]
    refine realizes_natQuotient (hdivisor hpower k) ?_
    simp only
    rw [dif_pos last]
    exact realizes_ok _
  | case2 power k term last ih =>
    rw [inverseTermsSteps, inverseTerms, dif_neg last]
    refine realizes_natQuotient (hdivisor hpower k) ?_
    simp only
    rw [dif_neg last]
    have hnext := Nat.mul_ne_zero hpower (Nat.mul_pos positive positive).ne'
    exact (ih hnext).pass fun _ => realizes_ok _

/-! ### Constants -/

def computePiSteps (digits : Nat) : Steps Int := do
  let ⟨scale, _⟩ ← tenTo (digits + extraDigits)
  let a ← inverseTermsSteps 5 (Nat.succ_pos _) scale 5 0
  let b ← inverseTermsSteps 239 (Nat.succ_pos _) scale 239 0
  let ⟨extra, _⟩ ← tenTo extraDigits
  let ⟨value, _⟩ ← quotient (16 * alternating a - 4 * alternating b) extra
  return value

def computeLn10Steps (digits : Nat) : Steps Int := do
  let ⟨scale, _⟩ ← tenTo (digits + extraDigits)
  let a ← inverseTermsSteps 3 (Nat.succ_pos _) scale 3 0
  let b ← inverseTermsSteps 9 (Nat.succ_pos _) scale 9 0
  let ⟨extra, _⟩ ← tenTo extraDigits
  let ⟨value, _⟩ ← quotient (3 * (2 * total a) + 2 * total b : Nat) extra
  return value

def requestSteps (compute : Nat → Steps Int) (known : Option Longest) (digits : Nat) : Steps Int :=
  match known with
  | some longest =>
    if digits ≤ longest.digits then do
      let ⟨cut, _⟩ ← takeAway longest.digits digits
      let ⟨power, _⟩ ← tenTo cut
      let ⟨value, _⟩ ← quotient longest.value power
      return value
    else compute digits
  | none => compute digits

def piDigitsSteps (known : Constants) : Nat → Steps Int := requestSteps computePiSteps known.pi

def ln10DigitsSteps (known : Constants) : Nat → Steps Int :=
  requestSteps computeLn10Steps known.ln10

/-- The digits that are known of the constants are those of their computation, counted in 32
bits. -/
structure Constants.Sound (known : Constants) : Prop where
  pi : Computed computePi known.pi
  ln10 : Computed computeLn10 known.ln10
  counted_pi : Counted known.pi
  counted_ln10 : Counted known.ln10

theorem Constants.sound_afterRequests (forPi forLn10 : List Nat)
    (hpi : ∀ digits ∈ forPi, digits + extraDigits < UInt32.size)
    (hln10 : ∀ digits ∈ forLn10, digits + extraDigits < UInt32.size) :
    Sound { pi := afterRequests computePi forPi, ln10 := afterRequests computeLn10 forLn10 } where
  pi := computed_afterRequests computePi forPi
  ln10 := computed_afterRequests computeLn10 forLn10
  counted_pi := counted_afterRequests computePi hpi
  counted_ln10 := counted_afterRequests computeLn10 hln10

theorem realizes_computePi (digits : Nat) :
    Realizes (computePiSteps digits) (.ok (computePi digits)) := by
  unfold computePiSteps computePi arctanInverse
  refine realizes_tenTo fun hlong => ?_
  rw [powerOfTen_eq _ hlong]
  refine (realizes_inverseTerms 5 _ _ (by decide) 0).pass fun _ => ?_
  refine (realizes_inverseTerms 239 _ _ (by decide) 0).pass fun _ => ?_
  exact realizes_tenTo fun _ => realizes_quotient (cast_tens_ne_zero _) (realizes_ok _)

theorem realizes_computeLn10 (digits : Nat) :
    Realizes (computeLn10Steps digits) (.ok (computeLn10 digits)) := by
  unfold computeLn10Steps computeLn10 artanhInverse
  refine realizes_tenTo fun hlong => ?_
  rw [powerOfTen_eq _ hlong]
  refine (realizes_inverseTerms 3 _ _ (by decide) 0).pass fun _ => ?_
  refine (realizes_inverseTerms 9 _ _ (by decide) 0).pass fun _ => ?_
  exact realizes_tenTo fun _ => realizes_quotient (cast_tens_ne_zero _) (realizes_ok _)

variable {compute : Nat → Int} {steps : Nat → Steps Int} {known : Option Longest} {digits : Nat}

theorem realizes_request (h : Realizes (steps digits) (.ok (compute digits))) :
    Realizes (requestSteps steps known digits) (.ok (request compute known digits).1) := by
  cases known with
  | none => exact h
  | some longest =>
    simp only [requestSteps, request]
    split
    · next hle =>
      refine realizes_takeAway hle (realizes_tenTo fun hlong => ?_)
      rw [powerOfTen_eq _ hlong]
      exact realizes_quotient (cast_tens_ne_zero _) (realizes_ok _)
    · exact h

/-- The steps of a computation ask for a power of ten with ten digits more, and those of a request
cut its digits off, or are the steps of a computation. -/
theorem lt_of_request (hknown : Counted known)
    (hsteps : ∀ v, steps digits = .ok v → digits + extraDigits < UInt32.size) {v : Int}
    (h : requestSteps steps known digits = .ok v) : digits + extraDigits < UInt32.size := by
  cases known with
  | none => exact hsteps v h
  | some longest =>
    rw [requestSteps] at h
    split at h
    · next hle =>
      have hlt := hknown longest rfl
      omega
    · exact hsteps v h

variable {known : Constants}

theorem realizes_piDigits (known : Constants) (digits : Nat) :
    Realizes (piDigitsSteps known digits) (.ok (known.piDigits digits)) :=
  realizes_request (realizes_computePi digits)

theorem realizes_ln10Digits (known : Constants) (digits : Nat) :
    Realizes (ln10DigitsSteps known digits) (.ok (known.ln10Digits digits)) :=
  realizes_request (realizes_computeLn10 digits)

theorem lt_of_piDigits (hknown : known.Sound) {v : Int}
    (h : piDigitsSteps known digits = .ok v) : digits + extraDigits < UInt32.size :=
  lt_of_request hknown.counted_pi (fun _ => lt_of_tenTo_bind) h

theorem lt_of_ln10Digits (hknown : known.Sound) {v : Int}
    (h : ln10DigitsSteps known digits = .ok v) : digits + extraDigits < UInt32.size :=
  lt_of_request hknown.counted_ln10 (fun _ => lt_of_tenTo_bind) h

theorem piDigits_pos (hknown : known.Sound) (hpos : 0 < digits)
    (hdigits : digits + extraDigits < UInt32.size) : 0 < known.piDigits digits := by
  have hnear := abs_le.mp (abs_piDigits_sub_le hknown.pi hknown.counted_pi hdigits)
  have hten : (10 : ℝ) ≤ 10 ^ digits := le_self_pow₀ (by norm_num) hpos.ne'
  have hthree := mul_le_mul Real.pi_gt_three.le hten (by norm_num) Real.pi_pos.le
  have hreal : (0 : ℝ) < known.piDigits digits := by linarith
  exact_mod_cast hreal

/-- The first term of the series for three alone makes up for the digits that are dropped. -/
theorem tens_le_computeLn10 (hdigits : digits + extraDigits < UInt32.size) :
    ((tens digits : Nat) : Int) ≤ computeLn10 digits := by
  have hfirst : powerOfTen (digits + extraDigits) / 3 ≤
      artanhInverse 3 (by decide) (powerOfTen (digits + extraDigits)) := by
    rw [artanhInverse, inverseTerms]
    split
    · next last => exact last.le
    · exact Nat.le_add_right _ _
  have hscale : powerOfTen (digits + extraDigits) = tens digits * tens extraDigits := by
    rw [powerOfTen_eq _ hdigits, tens_add]
  have hextra : tens extraDigits = 10000000000 := rfl
  have hpos := tens_pos digits
  rw [computeLn10, ← Int.ofNat_tdiv, Int.ofNat_le, Nat.le_div_iff_mul_le (tens_pos _)]
  simp only [hscale, hextra] at hfirst ⊢
  omega

theorem ln10Digits_pos (hknown : known.Sound) (hdigits : digits + extraDigits < UInt32.size) :
    0 < known.ln10Digits digits := by
  have htens := tens_pos digits
  rw [Constants.ln10Digits]
  rcases request_eq computeLn10 known.ln10 digits with ⟨longest, hmem, hle, heq⟩ | heq <;> rw [heq]
  · obtain ⟨cut, hcut⟩ : ∃ cut, longest.digits = digits + cut := ⟨_, (Nat.add_sub_of_le hle).symm⟩
    have hlong := hknown.counted_ln10 longest hmem
    have hvalue := tens_le_computeLn10 hlong
    have hcutpos : ((0 : Nat) : Int) < tens cut := Int.ofNat_lt.mpr (tens_pos cut)
    rw [hcut, tens_add, Int.natCast_mul] at hvalue
    rw [hknown.ln10 longest hmem]
    simp only [hcut, Nat.add_sub_cancel_left]
    rw [powerOfTen_eq cut (by omega), Int.tdiv_eq_ediv_of_nonneg (by nlinarith)]
    refine Int.lt_of_lt_of_le ?_ (Int.le_ediv_of_mul_le hcutpos hvalue)
    exact_mod_cast htens
  · exact lt_of_lt_of_le (by exact_mod_cast htens) (tens_le_computeLn10 hdigits)

/-! ### Exponential and logarithm -/

def squareTimesSteps (scale : Nat) : Nat → Int → Steps Int
  | 0, x => return x
  | n + 1, x => do
    let ⟨square, _⟩ ← quotient (x * x) scale
    squareTimesSteps scale n square

def expSteps (x : Int) (w : Nat) : Steps Int := do
  let ⟨scale, _⟩ ← tenTo w
  let ⟨y, _⟩ ← quotient x (Nat.pow 2 halvings)
  let rest ← factorialTermsSteps y.natAbs scale id (fun n => Nat.le_refl n) 1 scale
  let sum : Int := if y < 0 then alternating (scale :: rest) else total (scale :: rest)
  squareTimesSteps scale halvings sum

def rootTimesSteps (scale : Nat) : Nat → Int → Steps Int
  | 0, a => return a
  | n + 1, a => do
    let ⟨root, _⟩ ← integerRoot 2 (a * scale)
    rootTimesSteps scale n root

def oddSeries (z scale : Nat) (small : z ≤ scale) : List Nat :=
  z :: oddTerms (z * z / scale) scale (square_le_of_le z scale small) 1 z

def oddSeriesSteps (z scale : Nat) : Steps (List Nat) := do
  let ⟨ratio, _⟩ ← natQuotient (z * z) scale
  if small : ratio ≤ scale then do
    let rest ← oddTermsSteps ratio scale small 1 z
    return z :: rest
  else undefined .endlessLoop

def lnSteps (a : Int) (w : Nat) : Steps Int := do
  let ⟨scale, _⟩ ← tenTo w
  let root ← rootTimesSteps scale rootings a
  let ⟨z, _⟩ ← quotient ((root - scale) * scale) (root + scale)
  let terms ← oddSeriesSteps z.natAbs scale
  return withSign (root - scale) (total terms) * (Nat.pow 2 (rootings + 1) : Nat)

theorem realizes_squareTimes {scale : Nat} (hscale : scale ≠ 0) (n : Nat) (x : Int) :
    Realizes (squareTimesSteps scale n x) (.ok (squareTimes scale n x)) := by
  induction n generalizing x with
  | zero => exact realizes_ok x
  | succ n ih => exact realizes_quotient (Int.natCast_ne_zero.mpr hscale) (ih _)

theorem realizes_exp (x : Int) (w : Nat) : Realizes (expSteps x w) (.ok (exp x w)) := by
  unfold expSteps exp exponentialTerms
  refine realizes_tenTo fun hlong => ?_
  rw [powerOfTen_eq _ hlong]
  refine realizes_quotient (by decide) ?_
  refine (realizes_factorialTerms (tens_ne_zero w) id _ (by decide) _).pass fun _ => ?_
  exact realizes_squareTimes (tens_ne_zero w) halvings _

theorem realizes_rootTimes (scale n : Nat) (a : Nat) :
    Realizes (rootTimesSteps scale n a) (.ok (rootTimes scale n a : Nat)) := by
  induction n generalizing a with
  | zero => exact realizes_ok _
  | succ n ih =>
    refine realizes_integerRoot (by decide) (by positivity) ?_
    exact ih _

theorem realizes_oddSeries {z scale : Nat} (hscale : scale ≠ 0) (small : z ≤ scale) :
    Realizes (oddSeriesSteps z scale) (.ok (oddSeries z scale small)) := by
  unfold oddSeriesSteps
  refine realizes_natQuotient hscale ?_
  simp only
  rw [dif_pos (square_le_of_le z scale small)]
  exact (realizes_oddTerms hscale _ 1 z).pass fun _ => realizes_ok _

theorem ln_eq (a w : Nat) :
    ln a w =
      withSign (rootTimes (powerOfTen w) rootings a - powerOfTen w)
        (total (oddSeries (artanhArgument (rootTimes (powerOfTen w) rootings a) (powerOfTen w))
          (powerOfTen w) (artanhArgument_le _ _))) * (Nat.pow 2 (rootings + 1) : Nat) := rfl

theorem realizes_ln (a w : Nat) : Realizes (lnSteps a w) (.ok (ln a w)) := by
  unfold lnSteps
  refine realizes_tenTo fun hlong => ?_
  rw [ln_eq, powerOfTen_eq _ hlong]
  have hscale := tens_pos w
  refine (realizes_rootTimes _ rootings a).pass fun _ => ?_
  generalize rootTimes (tens w) rootings a = root
  refine realizes_quotient (by omega) ?_
  have hz : ((((root : Int) - tens w) * tens w).tdiv (root + tens w)).natAbs =
      artanhArgument root (tens w) := by
    rw [Int.natAbs_tdiv, Int.natAbs_mul, artanhArgument]
    rfl
  simp only [hz]
  exact (realizes_oddSeries hscale.ne' _).pass fun _ => realizes_ok _

/-! ### Sine, cosine and arctangent -/

def circularSteps (x : Int) (w : Nat) : Steps (Int × Int) := do
  let ⟨scale, _⟩ ← tenTo w
  let ⟨square, _⟩ ← natQuotient (x.natAbs * x.natAbs) scale
  let forSine ← factorialTermsSteps square scale sineDivisor le_sineDivisor 1 x.natAbs
  let forCosine ← factorialTermsSteps square scale cosineDivisor le_cosineDivisor 1 scale
  return (withSign x (alternating (x.natAbs :: forSine)), alternating (scale :: forCosine))

def halfAngleSteps (scale : Nat) (x : Int) : Steps Int := do
  let ⟨r, _⟩ ← integerRoot 2 (scale * scale + x * x)
  let ⟨half, _⟩ ← quotient (x * scale) (scale + r)
  return half

def atanSteps (x : Int) (w : Nat) : Steps Int := do
  let ⟨scale, _⟩ ← tenTo w
  let half ← halfAngleSteps scale x
  let quarter ← halfAngleSteps scale half
  let eighth ← halfAngleSteps scale quarter
  let terms ← oddSeriesSteps eighth.natAbs scale
  return withSign x (alternating terms) * 8

theorem realizes_circular (x : Int) (w : Nat) :
    Realizes (circularSteps x w) (.ok (sin x w, cos x w)) := by
  unfold circularSteps sin cos scaledSquare
  refine realizes_tenTo fun hlong => ?_
  rw [powerOfTen_eq _ hlong]
  have hscale := tens_ne_zero w
  refine realizes_natQuotient hscale ?_
  refine (realizes_factorialTerms hscale sineDivisor _ (by decide) _).pass fun _ => ?_
  refine (realizes_factorialTerms hscale cosineDivisor _ (by decide) _).pass fun _ => ?_
  exact realizes_ok _

theorem realizes_halfAngle {β : Type} {scale : Nat} (hscale : 0 < scale) (x : Int)
    {f : Int → Steps β} {r : Except CalcError β}
    (h : ∀ half : Int, half.natAbs = halfAngleTangent scale x.natAbs → Realizes (f half) r) :
    Realizes (halfAngleSteps scale x >>= f) r := by
  have hsquares : (scale * scale + x * x : Int) = (scale * scale + x.natAbs * x.natAbs : Nat) := by
    push_cast
    rw [← abs_mul_abs_self x]
  refine realizes_assoc (realizes_integerRoot (by decide) (by rw [hsquares]; positivity) ?_)
  refine realizes_assoc (realizes_quotient (by omega) (h _ ?_))
  rw [Int.natAbs_tdiv, Int.natAbs_mul, halfAngleTangent, hsquares]
  rfl

theorem atan_eq (x : Int) (w : Nat) :
    atan x w =
      withSign x (alternating (oddSeries (eighthAngleTangent (powerOfTen w) x.natAbs)
        (powerOfTen w) (halfAngleTangent_le _ _))) * 8 := rfl

theorem realizes_atan (x : Int) (w : Nat) : Realizes (atanSteps x w) (.ok (atan x w)) := by
  unfold atanSteps
  refine realizes_tenTo fun hlong => ?_
  rw [atan_eq, powerOfTen_eq _ hlong]
  have hscale := tens_pos w
  refine realizes_halfAngle hscale x fun half hhalf => ?_
  refine realizes_halfAngle hscale half fun quarter hquarter => ?_
  refine realizes_halfAngle hscale quarter fun eighth heighth => ?_
  rw [hquarter, hhalf] at heighth
  rw [heighth]
  exact (realizes_oddSeries hscale.ne' _).pass fun _ => realizes_ok _

end DeskCalculator.FixedPoint
