import DeskCalculator.Decimal.Circular
import DeskCalculator.Proofs.Accuracy
import DeskCalculator.Proofs.ArithmeticSteps
import DeskCalculator.Proofs.Order
import DeskCalculator.Proofs.ExponentialSteps

/-!
# The steps of the circular functions

They are steps over primitives, with a proof for each that its steps realize it. A turn that an angle
is reduced by is positive, a cosine that the sine is divided by has been compared with zero, and a
sine that is not above one leaves a square of the cosine that is not negative, also after both have
been truncated.
-/

set_option autoImplicit false

namespace DeskCalculator.Decimal

open DeskCalculator.Natural DeskCalculator.FixedPoint DeskCalculator.Steps

def piSteps (c : Context) : Steps Decimal := do
  let w := c.digits + guardDigits
  let digits ← piDigitsSteps c.known w
  let x ← ofScaledSteps digits (-w)
  roundSteps x c.digits

def angleDigitsSteps (x : Decimal) (c : Context) : Steps Nat := do
  let ⟨zeros, _⟩ ← toSize (max (-x.adjusted) 0)
  return c.digits + guardDigits + zeros

def reducedAngleSteps (x : Decimal) (w : Nat) (c : Context) : Steps Int := do
  let whole ← integerDigitsSteps x
  if maxAngleDigits < whole then within none
  else do
    let scaled ← toScaledSteps x (w + whole)
    let half ← piDigitsSteps c.known (w + whole)
    let turn := half * 2
    let ⟨turns, _⟩ ← quotient scaled turn
    let r := scaled - turns * turn
    let r := if half < r then r - turn else if r < -half then r + turn else r
    let ⟨power, _⟩ ← tenTo whole
    let ⟨angle, _⟩ ← quotient r power
    return angle

def sinSteps (x : Decimal) (c : Context) : Steps Decimal :=
  if x.isNegligible c then settleSteps x c
  else do
    let w ← angleDigitsSteps x c
    let angle ← reducedAngleSteps x w c
    let (sine, _) ← circularSteps angle w
    finishSteps sine (-w) c

def cosSteps (x : Decimal) (c : Context) : Steps Decimal :=
  if x.isNegligible c then return one
  else do
    let w ← angleDigitsSteps x c
    let angle ← reducedAngleSteps x w c
    let (_, cosine) ← circularSteps angle w
    finishSteps cosine (-w) c

def tanSteps (x : Decimal) (c : Context) : Steps Decimal :=
  if x.isNegligible c then settleSteps x c
  else do
    let w ← angleDigitsSteps x c
    let angle ← reducedAngleSteps x w c
    let (sine, cosine) ← circularSteps angle w
    if cosine = 0 then within none
    else do
      let ⟨power, _⟩ ← tenTo w
      let ⟨q, _⟩ ← quotient (sine * power) cosine
      finishSteps q (-w) c

def quarterTurnSteps (c : Context) (w : Nat) : Steps Int := do
  let half ← piDigitsSteps c.known w
  let ⟨quarter, _⟩ ← quotient half 2
  return quarter

def scaledAsinSteps (x : Decimal) (w : Nat) (c : Context) : Steps Int :=
  if x.abs = one then do
    let quarter ← quarterTurnSteps c w
    return if x.isNegative then -quarter else quarter
  else do
    let ⟨scale, _⟩ ← tenTo w
    let scaled ← toScaledSteps x w
    let ⟨cosine, _⟩ ← integerRoot 2 (scale * scale - scaled * scaled)
    let ⟨tangent, _⟩ ← quotient (scaled * scale) (scale + cosine)
    let half ← FixedPoint.atanSteps tangent w
    return half * 2

def asinSteps (x : Decimal) (c : Context) : Steps Decimal := do
  let order ← cmpSteps x.abs one
  if order = .gt then within none
  else if x.isNegligible c then settleSteps x c
  else do
    let w ← angleDigitsSteps x c
    let angle ← scaledAsinSteps x w c
    finishSteps angle (-w) c

def acosSteps (x : Decimal) (c : Context) : Steps Decimal := do
  let order ← cmpSteps x.abs one
  if order = .gt then within none
  else do
    let w := c.digits + guardDigits
    let quarter ← quarterTurnSteps c w
    let angle ← scaledAsinSteps x w c
    finishSteps (quarter - angle) (-w) c

def atanSteps (x : Decimal) (c : Context) : Steps Decimal :=
  if x.isNegligible c then settleSteps x c
  else do
    let w ← angleDigitsSteps x c
    let order ← cmpSteps x.abs one
    if order = .gt then do
      let inverse ← divSteps one x (c.withDigits w)
      let quarter ← quarterTurnSteps c w
      let scaled ← toScaledSteps inverse w
      let rest ← FixedPoint.atanSteps scaled w
      finishSteps ((if x.isNegative then -quarter else quarter) - rest) (-w) c
    else do
      let scaled ← toScaledSteps x w
      let angle ← FixedPoint.atanSteps scaled w
      finishSteps angle (-w) c

/-! ### What they realize -/

variable {c : Context}

theorem realizes_pi (c : Context) : Realizes (piSteps c) (.ok (pi c)) := by
  refine (realizes_piDigits c.known _).pass fun _ => ?_
  refine (realizes_ofScaled _ _).pass fun _ => ?_
  exact realizes_round _ c.digits

theorem realizes_angleDigits (x : Decimal) :
    Realizes (angleDigitsSteps x c) (.ok (x.angleDigits c)) := by
  refine realizes_toSize (Int.le_max_right _ _) ?_
  have hzeros : (max (-x.adjusted) 0).toNat = (-x.adjusted).toNat := by omega
  simp only [hzeros]
  exact realizes_ok _

theorem realizes_reducedAngle (hc : c.known.Sound) (x : Decimal) {w : Nat} (hw : 0 < w) :
    Realizes (reducedAngleSteps x w c) (orOutOfRange (x.reducedAngle w c)) := by
  unfold reducedAngleSteps reducedAngle
  refine (realizes_integerDigits x).pass fun _ => ?_
  refine realizes_ite (fun _ => realizes_within none) fun _ => ?_
  refine (realizes_toScaled x _).pass fun _ => ?_
  refine (realizes_piDigits c.known _).pass fun hhalf => ?_
  have hhalf := piDigits_pos hc (Nat.add_pos_left hw _) (lt_of_piDigits hc hhalf)
  refine realizes_quotient (by omega) (realizes_tenTo fun _ => ?_)
  exact realizes_quotient (cast_tens_ne_zero _) (realizes_ok _)

theorem angleDigits_pos (x : Decimal) : 0 < x.angleDigits c := by
  have hdigits := c.positive
  rw [angleDigits]
  omega

theorem realizes_sin (hc : c.known.Sound) (x : Decimal) :
    Realizes (sinSteps x c) (orOutOfRange (x.sin c)) := by
  unfold sinSteps sin
  refine realizes_ite (fun _ => realizes_settle x c) fun _ => ?_
  refine (realizes_angleDigits x).pass fun _ => ?_
  refine (realizes_reducedAngle hc x x.angleDigits_pos).bind_within fun angle _ _ => ?_
  exact (realizes_circular angle _).pass fun _ => realizes_finish _ _ c

theorem realizes_cos (hc : c.known.Sound) (x : Decimal) :
    Realizes (cosSteps x c) (orOutOfRange (x.cos c)) := by
  unfold cosSteps cos
  refine realizes_ite (fun _ => realizes_ok one) fun _ => ?_
  refine (realizes_angleDigits x).pass fun _ => ?_
  refine (realizes_reducedAngle hc x x.angleDigits_pos).bind_within fun angle _ _ => ?_
  exact (realizes_circular angle _).pass fun _ => realizes_finish _ _ c

theorem realizes_tan (hc : c.known.Sound) (x : Decimal) :
    Realizes (tanSteps x c) (orOutOfRange (x.tan c)) := by
  unfold tanSteps tan
  refine realizes_ite (fun _ => realizes_settle x c) fun _ => ?_
  refine (realizes_angleDigits x).pass fun _ => ?_
  refine (realizes_reducedAngle hc x x.angleDigits_pos).bind_within fun angle _ _ => ?_
  refine (realizes_circular angle _).pass fun _ => ?_
  refine realizes_ite (fun _ => realizes_within none) fun hcosine => ?_
  refine realizes_tenTo fun hlong => ?_
  rw [powerOfTen_eq _ hlong]
  exact realizes_quotient hcosine (realizes_finish _ _ c)

theorem realizes_quarterTurn (w : Nat) :
    Realizes (quarterTurnSteps c w) (.ok (quarterTurn c w)) :=
  (realizes_piDigits c.known w).pass fun _ => realizes_quotient (by decide) (realizes_ok _)

theorem natAbs_toScaled_le {x : Decimal} (hx : x.abs.cmp one ≠ .gt) (hone : x.abs ≠ one) {w : Nat}
    (hlong : w < UInt32.size) : (x.toScaled w).natAbs ≤ tens w := by
  have hvalue : |x.value| < 1 := by
    rw [cmp_eq_compare_value, value_abs, value_one, Ne, compare_gt_iff_gt, not_lt] at hx
    refine lt_of_le_of_ne hx fun heq => hone (value_injective ?_)
    rw [value_abs, value_one, heq]
  by_cases hzero : x.value = 0
  · rw [value_eq_zero] at hzero
    simp [toScaled, hzero]
  · have hwhole : x.integerDigits = 0 := by
      have hadjusted := (adjusted_lt_iff hzero).mpr (hvalue.trans_eq (zpow_zero 10).symm)
      rw [integerDigits]
      omega
    have hscaled := abs_toScaled_le (x := x) (w := w) (by omega)
    have hreal : |(x.value : ℝ)| ≤ 1 := by exact_mod_cast hvalue.le
    have hle : |(x.toScaled w : ℝ)| ≤ (tens w : ℝ) := by
      rw [tens_eq_pow]
      push_cast
      have hpos : (0 : ℝ) < 10 ^ w := by positivity
      nlinarith
    rw [← Int.cast_abs, Int.abs_eq_natAbs] at hle
    exact_mod_cast hle

theorem realizes_scaledAsin {x : Decimal} (hx : x.abs.cmp one ≠ .gt) (w : Nat) :
    Realizes (scaledAsinSteps x w c) (.ok (x.scaledAsin w c)) := by
  unfold scaledAsinSteps scaledAsin
  split
  · refine (realizes_quarterTurn w).pass fun _ => ?_
    exact realizes_ok _
  next hone =>
  refine realizes_tenTo fun hlong => ?_
  simp only [powerOfTen_eq _ hlong]
  refine (realizes_toScaled x w).pass fun _ => ?_
  have hle := natAbs_toScaled_le hx hone hlong
  have hsquares : (tens w * tens w - x.toScaled w * x.toScaled w : Int) =
      (tens w * tens w - (x.toScaled w).natAbs * (x.toScaled w).natAbs : Nat) := by
    rw [Int.ofNat_sub (Nat.mul_le_mul hle hle)]
    push_cast
    rw [abs_mul_abs_self]
  have hscale := tens_pos w
  refine realizes_integerRoot (by decide) (by rw [hsquares]; exact Int.natCast_nonneg _) ?_
  refine realizes_quotient (by omega) ?_
  simp only [hsquares, Int.toNat_natCast, ← Int.natCast_add]
  exact (FixedPoint.realizes_atan _ w).pass fun _ => realizes_ok _

theorem realizes_asin (x : Decimal) : Realizes (asinSteps x c) (orOutOfRange (x.asin c)) := by
  unfold asinSteps asin
  refine (realizes_cmp x.abs one).pass fun _ => ?_
  refine realizes_ite (fun _ => realizes_within none) fun hx => ?_
  refine realizes_ite (fun _ => realizes_settle x c) fun _ => ?_
  refine (realizes_angleDigits x).pass fun _ => ?_
  exact (realizes_scaledAsin hx _).pass fun _ => realizes_finish _ _ c

theorem realizes_acos (x : Decimal) : Realizes (acosSteps x c) (orOutOfRange (x.acos c)) := by
  unfold acosSteps acos
  refine (realizes_cmp x.abs one).pass fun _ => ?_
  refine realizes_ite (fun _ => realizes_within none) fun hx => ?_
  refine (realizes_quarterTurn _).pass fun _ => ?_
  exact (realizes_scaledAsin hx _).pass fun _ => realizes_finish _ _ c

theorem realizes_atan (x : Decimal) : Realizes (atanSteps x c) (orOutOfRange (x.atan c)) := by
  unfold atanSteps atan
  refine realizes_ite (fun _ => realizes_settle x c) fun _ => ?_
  refine (realizes_angleDigits x).pass fun _ => ?_
  refine (realizes_cmp x.abs one).pass fun _ => ?_
  refine realizes_ite (fun _ => ?_) fun _ => ?_
  · refine (realizes_div one x _).bind_within fun inverse _ _ => ?_
    refine (realizes_quarterTurn _).pass fun _ => ?_
    refine (realizes_toScaled inverse _).pass fun _ => ?_
    exact (FixedPoint.realizes_atan _ _).pass fun _ => realizes_finish _ _ c
  · refine (realizes_toScaled x _).pass fun _ => ?_
    exact (FixedPoint.realizes_atan _ _).pass fun _ => realizes_finish _ _ c

end DeskCalculator.Decimal
