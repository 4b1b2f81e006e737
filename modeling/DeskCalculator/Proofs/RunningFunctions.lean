import DeskCalculator.Expression.Running
import DeskCalculator.Proofs.Carry
import DeskCalculator.Proofs.CircularSteps
import DeskCalculator.Proofs.Running

/-!
# Functions in a running program

A function asks for the digits of one constant at most, and depends on nothing else that is
kept. Of the circle constant and the logarithm of ten it asks for the digits of its context and
half as many again at most, besides two thousand for an angle of many turns. So as long as 32
bits count these, no function breaks the program off.
-/

set_option autoImplicit false

namespace DeskCalculator

open DeskCalculator.Natural DeskCalculator.FixedPoint DeskCalculator.FixedPoint.Constants

theorem orOutOfRange_bind {α β : Type} (o : Option α) (f : α → Option β) :
    orOutOfRange (o.bind f) = orOutOfRange o >>= fun a => orOutOfRange (f a) := by
  cases o <;> rfl

/-- No function asks for more digits of a constant. -/
def Context.mostAsked (c : Context) : ℕ := c.digits + c.digits / 2 + 2050

namespace Decimal

variable {x y n : Decimal} {c : Context} {known : Constants}

/-! ### How many digits are asked for -/

theorem Reaches.natAbs_adjusted_le (h : x.Reaches) : x.adjusted.natAbs < 10 ^ 16 := by
  have hmax : maxAdjusted = 9000000000000000 := rfl
  rcases h with (hm | hr) | hv
  · have hzero : x = zero := value_injective (by rw [value_eq_zero.mpr hm, value_zero])
    rw [hzero]
    show (0 + (digitCount 0 : ℤ) - 1).natAbs < 10 ^ 16
    rw [digitCount_zero]
    decide
  · omega
  · have hne : x.value ≠ 0 := by
      rintro h0
      rw [h0, abs_zero] at hv
      exact (ten_zpow_pos _).ne hv
    have hlow : ¬x.adjusted < maxAdjusted + 1 := by rw [adjusted_lt_iff hne, hv]; exact lt_irrefl _
    have hhigh : x.adjusted < maxAdjusted + 2 := by
      rw [adjusted_lt_iff hne, hv]
      exact ten_zpow_lt.mpr (by omega)
    omega

theorem Reaches.abs (h : x.Reaches) : x.abs.Reaches := by
  unfold Decimal.abs
  split
  · exact h.neg
  · exact h

theorem logarithmDigits_le (h : x.Reaches) : x.logarithmDigits c ≤ c.digits + 26 := by
  have hcount : digitCount x.adjusted.natAbs ≤ 16 :=
    (digitCount_le_iff (by decide)).mpr (by rw [tens_eq_pow]; exact h.natAbs_adjusted_le)
  have hguard : guardDigits = 10 := rfl
  rw [logarithmDigits]
  omega

theorem angleDigits_le (h : x.isNegligible c = false) :
    x.angleDigits c ≤ c.digits + c.digits / 2 + 11 := by
  rw [isNegligible, Bool.or_eq_false_iff, decide_eq_false_iff_not] at h
  have hguard : guardDigits = 10 := rfl
  rw [angleDigits]
  omega

theorem angleDigits_add_le (h : x.isNegligible c = false) (hwhole : x.integerDigits ≤ 2000) :
    x.angleDigits c + x.integerDigits ≤ c.digits + c.digits / 2 + 2010 := by
  have hangle := angleDigits_le h
  have hguard : guardDigits = 10 := rfl
  rw [angleDigits] at hangle ⊢
  rw [integerDigits] at hwhole ⊢
  omega

/-! ### What a function depends on -/

section
variable (x c known)

@[simp] theorem digits_knowing : (c.knowing known).digits = c.digits := rfl

@[simp] theorem known_knowing : (c.knowing known).known = known := rfl

@[simp] theorem finish_knowing (m e : ℤ) : finish m e (c.knowing known) = finish m e c := rfl

@[simp] theorem logarithmDigits_knowing :
    x.logarithmDigits (c.knowing known) = x.logarithmDigits c := rfl

@[simp] theorem angleDigits_knowing : x.angleDigits (c.knowing known) = x.angleDigits c := rfl

@[simp] theorem isNegligible_knowing : x.isNegligible (c.knowing known) = x.isNegligible c := rfl

end

theorem exp_knowing (h : ∀ a ∈ x.expAsk? c, known.answer a = c.known.answer a) :
    x.exp (c.knowing known) = x.exp c := by
  unfold exp
  split
  · rfl
  · next hzero =>
    split
    · rfl
    · next hbig =>
      have hasked : x.expAsk? c = some { constant := .ln10, digits := _, divides := true } :=
        if_neg (by simp [hzero, hbig])
      have hln10 : known.ln10Digits (c.digits + guardDigits + x.integerDigits) =
          c.known.ln10Digits (c.digits + guardDigits + x.integerDigits) := h _ hasked
      simp only [digits_knowing, known_knowing, finish_knowing, hln10]

theorem ln_knowing (h : ∀ a ∈ x.lnAsk? c, known.answer a = c.known.answer a) :
    x.ln (c.knowing known) = x.ln c := by
  unfold ln
  split
  · rfl
  · next hpos =>
    split
    · rfl
    · next hone =>
      simp only [logarithmDigits_knowing, known_knowing, finish_knowing]
      split
      · rfl
      · next hexponent =>
        have hasked : x.lnAsk? c = some { constant := .ln10, digits := x.logarithmDigits c } :=
          if_neg (by simp [hpos, hone, hexponent])
        have hln10 : known.ln10Digits (x.logarithmDigits c) =
            c.known.ln10Digits (x.logarithmDigits c) := h _ hasked
        rw [hln10]

theorem log10_knowing (h : ∀ a ∈ x.log10Ask? c, known.answer a = c.known.answer a) :
    x.log10 (c.knowing known) = x.log10 c := by
  unfold log10
  split
  · rfl
  · next hpos =>
    split
    · rfl
    · next hone =>
      have hasked : x.log10Ask? c =
          some { constant := .ln10, digits := x.logarithmDigits c, divides := true } :=
        if_neg (by simp [hpos, hone])
      have hln10 : known.ln10Digits (x.logarithmDigits c) =
          c.known.ln10Digits (x.logarithmDigits c) := h _ hasked
      simp only [logarithmDigits_knowing, known_knowing, finish_knowing, hln10]

theorem reducedAngle_knowing (hx : x.isNegligible c = false)
    (h : ∀ a ∈ x.angleAsk? c, known.answer a = c.known.answer a) :
    x.reducedAngle (x.angleDigits c) (c.knowing known) = x.reducedAngle (x.angleDigits c) c := by
  unfold reducedAngle
  simp only
  split
  · rfl
  · next hwhole =>
    have hasked : x.angleAsk? c = some { constant := .pi, digits := _, divides := true } :=
      if_neg (by simp [hx, hwhole])
    have hpi : known.piDigits (x.angleDigits c + x.integerDigits) =
        c.known.piDigits (x.angleDigits c + x.integerDigits) := h _ hasked
    simp only [known_knowing, hpi]

section
variable (h : ∀ a ∈ x.angleAsk? c, known.answer a = c.known.answer a)
include h

theorem sin_knowing : x.sin (c.knowing known) = x.sin c := by
  simp only [sin, isNegligible_knowing, angleDigits_knowing, finish_knowing, digits_knowing]
  refine ite_congr rfl (fun _ => rfl) fun hx => ?_
  rw [reducedAngle_knowing (Bool.eq_false_of_not_eq_true hx) h]

theorem cos_knowing : x.cos (c.knowing known) = x.cos c := by
  simp only [cos, isNegligible_knowing, angleDigits_knowing, finish_knowing]
  refine ite_congr rfl (fun _ => rfl) fun hx => ?_
  rw [reducedAngle_knowing (Bool.eq_false_of_not_eq_true hx) h]

theorem tan_knowing : x.tan (c.knowing known) = x.tan c := by
  simp only [tan, isNegligible_knowing, angleDigits_knowing, finish_knowing, digits_knowing]
  refine ite_congr rfl (fun _ => rfl) fun hx => ?_
  rw [reducedAngle_knowing (Bool.eq_false_of_not_eq_true hx) h]
  rfl

end

theorem quarterTurn_knowing {w : ℕ} (h : known.piDigits w = c.known.piDigits w) :
    quarterTurn (c.knowing known) w = quarterTurn c w := by
  rw [quarterTurn, quarterTurn, known_knowing, h]

/-- Only a quarter turn as a whole is taken from the constant. -/
theorem scaledAsin_knowing {w : ℕ} (h : x.abs = one → known.piDigits w = c.known.piDigits w) :
    x.scaledAsin w (c.knowing known) = x.scaledAsin w c := by
  unfold scaledAsin
  split
  · next hone => rw [quarterTurn_knowing (h hone)]
  · rfl

theorem asin_knowing
    (h : x.abs = one → known.piDigits (x.angleDigits c) = c.known.piDigits (x.angleDigits c)) :
    x.asin (c.knowing known) = x.asin c := by
  simp only [asin, isNegligible_knowing, angleDigits_knowing, finish_knowing, digits_knowing,
    scaledAsin_knowing h]

theorem acos_knowing (h : known.answer (piAsk c) = c.known.answer (piAsk c)) :
    x.acos (c.knowing known) = x.acos c := by
  have hpi : known.piDigits (c.digits + guardDigits) =
      c.known.piDigits (c.digits + guardDigits) := h
  simp only [acos, digits_knowing, finish_knowing, quarterTurn_knowing hpi,
    scaledAsin_knowing fun _ => hpi]

theorem mul_knowing : x.mul y (c.knowing known) = x.mul y c := rfl

theorem atan_knowing (h : ∀ a ∈ x.atanAsk? c, known.answer a = c.known.answer a) :
    x.atan (c.knowing known) = x.atan c := by
  have hwith : ∀ w, one.div x ((c.knowing known).withDigits w) = one.div x (c.withDigits w) :=
    fun _ => rfl
  simp only [atan, isNegligible_knowing, angleDigits_knowing, finish_knowing, digits_knowing, hwith]
  split
  · rfl
  · next hx =>
    split
    · next hgt =>
      cases hinverse : one.div x (c.withDigits (x.angleDigits c)) with
      | none => rfl
      | some inverse =>
        have hasked : x.atanAsk? c = some { constant := .pi, digits := x.angleDigits c } :=
          if_neg (by simp [hx, hgt, hinverse])
        have hpi : known.piDigits (x.angleDigits c) = c.known.piDigits (x.angleDigits c) :=
          h _ hasked
        rw [quarterTurn_knowing hpi]
    · rfl

theorem pi_knowing (h : known.answer (piAsk c) = c.known.answer (piAsk c)) :
    pi (c.knowing known) = pi c := by
  have hpi : known.piDigits (c.digits + guardDigits) =
      c.known.piDigits (c.digits + guardDigits) := h
  rw [pi, pi, digits_knowing, known_knowing, hpi]

section
variable {unit : AngleUnit}

theorem toRadians_knowing
    (h : ∀ turn, unit.halfTurn? = some turn → known.answer (piAsk c) = c.known.answer (piAsk c)) :
    x.toRadians unit (c.knowing known) = x.toRadians unit c := by
  unfold toRadians
  cases hunit : unit.halfTurn? with
  | none => rfl
  | some turn =>
    simp only [pi_knowing (h turn hunit)]
    rfl

theorem ofRadians_knowing
    (h : ∀ turn, unit.halfTurn? = some turn → (x.mul turn c).isSome →
      known.answer (piAsk c) = c.known.answer (piAsk c)) :
    x.ofRadians unit (c.knowing known) = x.ofRadians unit c := by
  unfold ofRadians
  cases hunit : unit.halfTurn? with
  | none => rfl
  | some turn =>
    simp only [mul_knowing]
    cases hmul : x.mul turn c with
    | none => rfl
    | some product =>
      rw [Option.bind_some, Option.bind_some, pi_knowing (h turn hunit (by rw [hmul]; rfl))]
      rfl

end

/-! ### Functions that ask once -/

section
variable {limit : ℕ} {keeps : Constants → Prop} {asked : Option Ask}
  {f : Context → Option Decimal}

theorem follows_knowing (hkeeps : Serves limit keeps)
    (hasked : ∀ a ∈ asked, 0 < a.digits ∧ a.digits ≤ limit)
    (hsettles : ∀ c', Settles c' (f c'))
    (hknowing : ∀ known, (∀ a ∈ asked, known.answer a = c.known.answer a) →
      f (c.knowing known) = f c) :
    Running.Follows keeps (AnswersAs limit keeps c.known) (Settled c)
      (Running.asking asked fun known => orOutOfRange (f (c.knowing known)))
      (orOutOfRange (f c)) := by
  refine Running.follows_asking hkeeps hasked (fun known _ x hx => ?_) fun hexact known hknown => ?_
  · have hsettled := hsettles (c.knowing known) x (orOutOfRange_eq_ok.mp hx)
    exact ⟨hsettled.inRange, hsettled.length_le⟩
  · rw [hknowing known fun a ha => hexact known hknown a (hasked a ha).2]

variable (hkeeps : Serves limit keeps)
include hkeeps

theorem follows_exp (x : Decimal) (hlimit : c.digits + 27 ≤ limit) :
    Running.Follows keeps (AnswersAs limit keeps c.known) (Settled c) (x.expRunning c)
      (orOutOfRange (x.exp c)) := by
  refine follows_knowing hkeeps ?_ (fun _ => settles_exp x) fun known => exp_knowing
  intro a ha
  unfold expAsk? at ha
  split at ha
  · cases ha
  · next h =>
    cases ha
    have hguard : guardDigits = 10 := rfl
    rw [Bool.or_eq_true, decide_eq_true_iff, not_or] at h
    simp only [integerDigits]
    omega

theorem follows_ln (hx : x.Reaches) (hlimit : c.digits + 26 ≤ limit) :
    Running.Follows keeps (AnswersAs limit keeps c.known) (Settled c) (x.lnRunning c)
      (orOutOfRange (x.ln c)) := by
  refine follows_knowing hkeeps ?_ (fun _ => settles_ln x) fun known => ln_knowing
  intro a ha
  unfold lnAsk? at ha
  split at ha
  · cases ha
  · cases ha
    exact ⟨Nat.add_pos_left (Nat.add_pos_left c.positive _) _, (logarithmDigits_le hx).trans hlimit⟩

theorem follows_log10 (hx : x.Reaches) (hlimit : c.digits + 26 ≤ limit) :
    Running.Follows keeps (AnswersAs limit keeps c.known) (Settled c) (x.log10Running c)
      (orOutOfRange (x.log10 c)) := by
  refine follows_knowing hkeeps ?_ (fun _ => settles_log10 x) fun known => log10_knowing
  intro a ha
  unfold log10Ask? at ha
  split at ha
  · cases ha
  · cases ha
    exact ⟨Nat.add_pos_left (Nat.add_pos_left c.positive _) _, (logarithmDigits_le hx).trans hlimit⟩

end

/-! ### Angles -/

theorem hasCosine_of_cmp {limit w : ℕ} {keeps : Constants → Prop} (hkeeps : Serves limit keeps)
    (hx : x.abs.cmp one ≠ .gt) (hw : w ≤ limit) : x.hasCosine w = true := by
  have hroom := hkeeps.room
  have hlong : w < UInt32.size := by omega
  rw [hasCosine, Bool.or_eq_true, decide_eq_true_iff, decide_eq_true_iff, powerOfTen_eq w hlong]
  by_cases hone : x.abs = one
  · exact .inl hone
  · exact .inr (natAbs_toScaled_le hx hone hlong)

section
variable {limit : ℕ} {keeps : Constants → Prop} {unit : AngleUnit}
  (hkeeps : Serves limit keeps) (hlimit : c.mostAsked ≤ limit)
include hlimit

theorem angleAsk_bounds : ∀ a ∈ x.angleAsk? c, 0 < a.digits ∧ a.digits ≤ limit := by
  intro a ha
  unfold angleAsk? at ha
  split at ha
  · cases ha
  · next h =>
    cases ha
    rw [Bool.or_eq_true, decide_eq_true_iff, not_or, Bool.not_eq_true] at h
    have hangle := angleDigits_add_le h.1 (not_lt.mp h.2)
    rw [Context.mostAsked] at hlimit
    exact ⟨Nat.add_pos_left x.angleDigits_pos _, hangle.trans (by omega)⟩

theorem piAsk_bounds : 0 < (piAsk c).digits ∧ (piAsk c).digits ≤ limit := by
  have hguard : guardDigits = 10 := rfl
  have hpos := c.positive
  rw [Context.mostAsked] at hlimit
  simp only [piAsk]
  omega

include hkeeps

theorem follows_sin (x : Decimal) :
    Running.Follows keeps (AnswersAs limit keeps c.known) (Settled c) (x.sinRunning c)
      (orOutOfRange (x.sin c)) :=
  follows_knowing hkeeps (angleAsk_bounds hlimit) (fun _ => settles_sin x) fun _ => sin_knowing

theorem follows_cos (x : Decimal) :
    Running.Follows keeps (AnswersAs limit keeps c.known) (Settled c) (x.cosRunning c)
      (orOutOfRange (x.cos c)) :=
  follows_knowing hkeeps (angleAsk_bounds hlimit) (fun _ => settles_cos x) fun _ => cos_knowing

theorem follows_tan (x : Decimal) :
    Running.Follows keeps (AnswersAs limit keeps c.known) (Settled c) (x.tanRunning c)
      (orOutOfRange (x.tan c)) :=
  follows_knowing hkeeps (angleAsk_bounds hlimit) (fun _ => settles_tan x) fun _ => tan_knowing

theorem follows_asin (x : Decimal) :
    Running.Follows keeps (AnswersAs limit keeps c.known) (Settled c) (x.asinRunning c)
      (orOutOfRange (x.asin c)) := by
  have hwithin : Running.Follows keeps (AnswersAs limit keeps c.known) (Settled c)
      (Running.within (x.asin c)) (orOutOfRange (x.asin c)) :=
    Running.follows_ofOutcome fun z hz => settles_asin x z (orOutOfRange_eq_ok.mp hz)
  unfold asinRunning
  split
  · exact hwithin
  · next h =>
    rw [not_or, Bool.not_eq_true] at h
    have hangle := angleDigits_le h.2
    have hle : x.angleDigits c ≤ limit := by
      rw [Context.mostAsked] at hlimit
      omega
    rw [if_pos (hasCosine_of_cmp hkeeps h.1 hle)]
    refine follows_knowing hkeeps ?_ (fun _ => settles_asin x) fun known hknown => ?_
    · intro a ha
      split at ha
      · cases ha
        exact ⟨x.angleDigits_pos, hle⟩
      · cases ha
    · exact asin_knowing fun hone => hknown _ (if_pos hone)

theorem follows_acos (x : Decimal) :
    Running.Follows keeps (AnswersAs limit keeps c.known) (Settled c) (x.acosRunning c)
      (orOutOfRange (x.acos c)) := by
  have hwithin : Running.Follows keeps (AnswersAs limit keeps c.known) (Settled c)
      (Running.within (x.acos c)) (orOutOfRange (x.acos c)) :=
    Running.follows_ofOutcome fun z hz => settles_acos x z (orOutOfRange_eq_ok.mp hz)
  have hask := piAsk_bounds hlimit
  unfold acosRunning
  split
  · exact hwithin
  · next hx =>
    have hcosine : x.hasCosine (c.digits + guardDigits) = true :=
      hasCosine_of_cmp hkeeps hx hask.2
    rw [if_pos hcosine]
    refine follows_knowing hkeeps ?_ (fun _ => settles_acos x) fun known hknown => ?_
    · rintro a ⟨⟩
      exact hask
    · exact acos_knowing (hknown _ rfl)

theorem follows_atan (x : Decimal) :
    Running.Follows keeps (AnswersAs limit keeps c.known) (Settled c) (x.atanRunning c)
      (orOutOfRange (x.atan c)) := by
  refine follows_knowing hkeeps ?_ (fun _ => settles_atan x) fun _ => atan_knowing
  intro a ha
  unfold atanAsk? at ha
  split at ha
  · cases ha
  · next h =>
    cases ha
    rw [Bool.or_eq_true, Bool.or_eq_true, not_or, not_or, Bool.not_eq_true] at h
    have hangle := angleDigits_le h.1.1
    rw [Context.mostAsked] at hlimit
    exact ⟨x.angleDigits_pos, hangle.trans (by omega)⟩

theorem follows_toRadians (x : Decimal) :
    Running.Follows keeps (AnswersAs limit keeps c.known) (fun _ => True) (x.toRadiansRunning unit c)
      (orOutOfRange (x.toRadians unit c)) := by
  refine Running.follows_asking hkeeps ?_ (fun _ _ _ _ => trivial) fun hexact known hknown => ?_
  · intro a ha
    obtain ⟨turn, -, rfl⟩ := Option.map_eq_some_iff.mp ha
    exact piAsk_bounds hlimit
  · rw [toRadians_knowing fun _ _ => hexact known hknown _ (piAsk_bounds hlimit).2]

theorem follows_ofRadians (hx : Settled c x) :
    Running.Follows keeps (AnswersAs limit keeps c.known) (Settled c) (x.ofRadiansRunning unit c)
      (orOutOfRange (x.ofRadians unit c)) := by
  refine Running.follows_asking hkeeps ?_ (fun known _ z hz => ?_) fun hexact known hknown => ?_
  · intro a ha
    obtain ⟨turn, -, rfl⟩ := Option.map_eq_some_iff.mp ha
    exact piAsk_bounds hlimit
  · have hsettled : Settled (c.knowing known) x := ⟨hx.inRange, hx.length_le⟩
    have hz' := settles_ofRadians hsettled.some unit z (orOutOfRange_eq_ok.mp hz)
    exact ⟨hz'.inRange, hz'.length_le⟩
  · rw [ofRadians_knowing fun _ _ _ => hexact known hknown _ (piAsk_bounds hlimit).2]

end

/-! ### Powers and roots -/

section
variable {limit : ℕ} {keeps : Constants → Prop} (hkeeps : Serves limit keeps)
include hkeeps

theorem follows_powerOfPositive (hx : x.Reaches) (hlimit : c.mostAsked ≤ limit) :
    Running.Follows keeps (AnswersAs limit keeps c.known) (Kept c)
      (x.powerOfPositiveRunning y c) (orOutOfRange (x.powerOfPositive y c)) := by
  rw [Context.mostAsked] at hlimit
  have hguard : guardDigits = 10 := rfl
  have hwide : ∀ n, (c.widen n).digits = c.digits + n := digits_widen c
  have hpower : ∀ t : Decimal, Running.Follows keeps (AnswersAs limit keeps c.known) (Kept c)
      (do
        let power ← t.expRunning (c.widen guardDigits)
        return power.round c.digits)
      (orOutOfRange ((t.exp (c.widen guardDigits)).bind fun power =>
        some (power.round c.digits))) := by
    intro t
    rw [orOutOfRange_bind]
    refine (follows_exp hkeeps t (by rw [hwide]; omega)).bind fun power hpower => ?_
    exact Running.follows_pure ⟨power, hpower.inRange, rfl⟩
  unfold powerOfPositiveRunning powerOfPositive
  simp only [Option.bind_eq_bind, Option.pure_def]
  rw [orOutOfRange_bind]
  refine (follows_ln hkeeps hx (by rw [hwide]; omega)).bind fun logarithm _ => ?_
  rw [orOutOfRange_bind]
  refine (Running.follows_ofOutcome fun _ _ => trivial).bind fun rough (_ : True) => ?_
  split
  · exact (follows_exp hkeeps rough (by omega)).mono fun _ => Settled.kept
  · next hsmall =>
    split
    · have hwhole : rough.integerDigits ≤ 17 := by
        rw [integerDigits]
        omega
      rw [orOutOfRange_bind]
      refine (follows_ln hkeeps hx (by rw [hwide]; omega)).bind fun logarithm _ => ?_
      rw [orOutOfRange_bind]
      refine (Running.follows_ofOutcome fun _ _ => trivial).bind fun t (_ : True) => hpower t
    · exact hpower rough

omit hkeeps in
theorem pow_eq_of_isExponential (h : x.powIsExponential y = true) : x.pow y c =
    (x.abs.powerOfPositive y c).map fun p => if x.isNegative && !y.isEven then -p else p := by
  simp only [powIsExponential, Bool.and_eq_true, Bool.not_eq_true', Option.isNone_iff_eq_none] at h
  obtain ⟨⟨⟨hy, hx⟩, hword⟩, hsign⟩ := h
  simp only [pow, hy, hx, hword, Bool.false_eq_true, if_false]
  cases hneg : x.isNegative with
  | false =>
    have habs : x.abs = x := if_neg (by simp [hneg])
    simp [habs]
  | true =>
    have hinteger : y.isInteger = true := by simpa [hneg] using hsign
    simp only [hinteger, if_true, Bool.true_and]
    cases y.isEven <;> rfl

theorem follows_pow (hx : x.Reaches) (hlimit : c.mostAsked ≤ limit) :
    Running.Follows keeps (AnswersAs limit keeps c.known) (Kept c) (x.powRunning y c)
      (orOutOfRange (x.pow y c)) := by
  unfold powRunning
  split
  · next h =>
    rw [pow_eq_of_isExponential h, Option.map_eq_bind, orOutOfRange_bind]
    refine (follows_powerOfPositive hkeeps hx.abs hlimit).bind fun p hp => Running.follows_pure ?_
    split
    · exact kept_neg hp
    · exact hp
  · exact Running.follows_ofOutcome fun z hz => kept_pow x y (orOutOfRange_eq_ok.mp hz)

omit hkeeps in
theorem rootOfOrder_eq_of_rootIsPower (h : x.rootIsPower n = true) :
    x.rootOfOrder n c = orOutOfRange ((one.div n c).bind (x.pow · c)) := by
  simp only [rootIsPower, Bool.and_eq_true, Bool.not_eq_true'] at h
  obtain ⟨⟨hn, hsign⟩, hpower⟩ := h
  simp only [rootOfOrder, hn, hsign, Bool.false_eq_true, if_false]
  cases hword : n.toWord? with
  | none => rfl
  | some k =>
    rw [hword] at hpower
    simp only [Bool.or_eq_true, decide_eq_true_iff] at hpower
    refine if_neg ?_
    rw [Bool.and_eq_true, decide_eq_true_iff, Bool.not_eq_true', not_and]
    rintro hneg
    exact not_le.mpr (hpower.resolve_left (by simp [hneg]))

theorem follows_rootOfOrder (hx : x.Reaches) (hlimit : c.mostAsked ≤ limit) :
    Running.Follows keeps (AnswersAs limit keeps c.known) (Kept c) (x.rootOfOrderRunning n c)
      (x.rootOfOrder n c) := by
  unfold rootOfOrderRunning
  split
  · next h =>
    rw [rootOfOrder_eq_of_rootIsPower h, orOutOfRange_bind]
    refine (Running.follows_ofOutcome fun _ _ => trivial).bind fun inverse (_ : True) => ?_
    exact follows_pow hkeeps hx hlimit
  · exact Running.follows_ofOutcome fun z hz => kept_rootOfOrder x hz

end

end Decimal
end DeskCalculator
