import DeskCalculator.NamedFunction
import DeskCalculator.Proofs.CircularSteps
import DeskCalculator.Proofs.Evaluation
import DeskCalculator.Proofs.ExponentialSteps

/-!
# No operation leaves the domain of a primitive

The functions that an expression can call are steps over primitives too. All operations on decimals
together therefore only divide by numbers other than zero, only take roots of numbers that are not
negative and only count digits by numbers that are not negative, whatever their operands, the digits
kept and the unit of angles are; and when they fail it is for an argument or for the range.
-/

set_option autoImplicit false

namespace DeskCalculator

open DeskCalculator.FixedPoint DeskCalculator.Steps

namespace Decimal

/-! ### Angles, factorials and roots -/

def toRadiansSteps (x : Decimal) (unit : AngleUnit) (c : Context) : Steps Decimal :=
  match unit.halfTurn? with
  | none => return x
  | some halfTurn => do
    let half ← piSteps c
    let product ← mulSteps x half c
    divSteps product halfTurn c

def ofRadiansSteps (x : Decimal) (unit : AngleUnit) (c : Context) : Steps Decimal :=
  match unit.halfTurn? with
  | none => return x
  | some halfTurn => do
    let product ← mulSteps x halfTurn c
    let half ← piSteps c
    divSteps product half c

def factorialLoopSteps (n : Decimal) (c : Context) : Nat → Decimal → Decimal → Steps Decimal
  | 0, _, acc => return acc
  | rounds + 1, counter, acc => do
    let order ← cmpSteps counter n
    if order = .gt then return acc
    else do
      let acc ← mulSteps acc counter c
      let counter ← addSteps counter one c
      factorialLoopSteps n c rounds counter acc

def factorialSteps (n : Decimal) (c : Context) : Steps Decimal :=
  if !n.isInteger || n.isNegative then ofOutcome (.error .factorialOfNonNatural)
  else if c.digits ≤ n.adjusted then within none
  else factorialLoopSteps n c n.naturalValue (ofInt 2) one

def rootByPowerSteps (x n : Decimal) (c : Context) : Steps Decimal := do
  let inverse ← divSteps one n c
  powSteps x inverse c

def rootOfOrderSteps (x n : Decimal) (c : Context) : Steps Decimal :=
  if n.isZero then ofOutcome (.error .rootOfOrderZero)
  else if x.isNegative && n.isEven then ofOutcome (.error .evenRootOfNegative)
  else do
    match ← toWordSteps n with
    | some k =>
      if !x.isNegative && k.natAbs ≤ maxRootOrder then do
        let r ← rootSteps x k.natAbs c
        if k < 0 then divSteps one r c else return r
      else rootByPowerSteps x n c
    | none => rootByPowerSteps x n c

variable {c : Context}

theorem realizes_toRadians (x : Decimal) (unit : AngleUnit) :
    Realizes (toRadiansSteps x unit c) (orOutOfRange (x.toRadians unit c)) := by
  unfold toRadiansSteps toRadians
  cases unit.halfTurn? with
  | none => exact realizes_ok x
  | some halfTurn =>
    refine (realizes_pi c).pass fun _ => ?_
    exact (realizes_mul x (pi c) c).bind_within fun product _ _ => realizes_div product halfTurn c

theorem realizes_ofRadians (x : Decimal) (unit : AngleUnit) :
    Realizes (ofRadiansSteps x unit c) (orOutOfRange (x.ofRadians unit c)) := by
  unfold ofRadiansSteps ofRadians
  cases unit.halfTurn? with
  | none => exact realizes_ok x
  | some halfTurn =>
    refine (realizes_mul x halfTurn c).bind_within fun product _ _ => ?_
    exact (realizes_pi c).pass fun _ => realizes_div product (pi c) c

theorem realizes_factorialLoop (n : Decimal) (rounds : Nat) (counter acc : Decimal) :
    Realizes (factorialLoopSteps n c rounds counter acc)
      (orOutOfRange (factorialLoop n c rounds counter acc)) := by
  induction rounds generalizing counter acc with
  | zero => exact realizes_ok acc
  | succ rounds ih =>
    refine (realizes_cmp counter n).pass fun _ => ?_
    refine realizes_ite (fun _ => realizes_ok acc) fun _ => ?_
    refine (realizes_mul acc counter c).bind_within fun acc _ _ => ?_
    exact (realizes_add counter one c).bind_within fun counter _ _ => ih counter acc

theorem realizes_factorial (n : Decimal) : Realizes (factorialSteps n c) (n.factorial c) := by
  unfold factorialSteps factorial
  split
  · exact realizes_ofOutcome _
  · split
    · exact realizes_within none
    · exact realizes_factorialLoop n _ _ _

theorem realizes_rootByPower (hc : c.known.Sound) (x n : Decimal) :
    Realizes (rootByPowerSteps x n c) (orOutOfRange ((one.div n c).bind (x.pow · c))) :=
  (realizes_div one n c).bind_within fun inverse _ _ => realizes_pow hc x inverse

theorem realizes_rootOfOrder (hc : c.known.Sound) (x n : Decimal) :
    Realizes (rootOfOrderSteps x n c) (x.rootOfOrder n c) := by
  unfold rootOfOrderSteps rootOfOrder
  simp only
  split
  · exact realizes_ofOutcome _
  split
  · exact realizes_ofOutcome _
  refine (realizes_toWord n).pass fun _ => ?_
  cases n.toWord? with
  | none => exact realizes_rootByPower hc x n
  | some k =>
    simp only
    split
    · refine (realizes_root x k.natAbs).bind_within fun r _ _ => ?_
      exact realizes_ite (fun _ => realizes_div one r c) fun _ => realizes_ok r
    · exact realizes_rootByPower hc x n

end Decimal

/-! ### Functions by name -/

namespace NamedFunction

open Decimal

def computeSteps (f : NamedFunction) (x : Decimal) (others : List Decimal) (unit : AngleUnit)
    (c : Context) : Steps Decimal :=
  match f with
  | sin => do sinSteps (← toRadiansSteps x unit c) c
  | cos => do cosSteps (← toRadiansSteps x unit c) c
  | tan => do tanSteps (← toRadiansSteps x unit c) c
  | asin => do ofRadiansSteps (← asinSteps x c) unit c
  | acos => do ofRadiansSteps (← acosSteps x c) unit c
  | atan => do ofRadiansSteps (← atanSteps x c) unit c
  | ln => if x.isNegative || x.isZero then ofOutcome (.error .lnOfNonPositive) else lnSteps x c
  | log => if x.isNegative || x.isZero then ofOutcome (.error .logOfNonPositive) else log10Steps x c
  | exp => expSteps x c
  | tenpow => powSteps (ofInt 10) x c
  | abs => return x.abs
  | inv => if x.isZero then ofOutcome (.error .inverseOfZero) else divSteps one x c
  | sqrt => if x.isNegative then ofOutcome (.error .squareRootOfNegative) else rootSteps x 2 c
  | cbrt => rootSteps x 3 c
  | square => mulSteps x x c
  | cube => do mulSteps (← mulSteps x x c) x c
  | pow => do powSteps x (← ofOutcome (f.second others)) c
  | root => do rootOfOrderSteps x (← ofOutcome (f.second others)) c
  | fact => factorialSteps x c

def applySteps (f : NamedFunction) (x : Decimal) (others : List Decimal) (unit : AngleUnit)
    (c : Context) : Steps Decimal := do
  let value ← f.computeSteps x others unit (c.widen guardDigits)
  roundSteps value c.digits

variable {c : Context}

theorem realizes_check {p : Prop} [Decidable p] {e : CalcError} {m : Steps Decimal}
    {r : Except CalcError Decimal} (h : Realizes m r) :
    Realizes (if p then ofOutcome (.error e) else m) (if p then .error e else r) := by
  split
  · exact realizes_ofOutcome _
  · exact h

theorem realizes_compute (hc : c.known.Sound) (f : NamedFunction) (x : Decimal)
    (others : List Decimal) (unit : AngleUnit) :
    Realizes (f.computeSteps x others unit c) (f.compute x others unit c) := by
  cases f with
  | sin => exact (realizes_toRadians x unit).bind_within fun angle _ _ => realizes_sin hc angle
  | cos => exact (realizes_toRadians x unit).bind_within fun angle _ _ => realizes_cos hc angle
  | tan => exact (realizes_toRadians x unit).bind_within fun angle _ _ => realizes_tan hc angle
  | asin => exact (realizes_asin x).bind_within fun angle _ _ => realizes_ofRadians angle unit
  | acos => exact (realizes_acos x).bind_within fun angle _ _ => realizes_ofRadians angle unit
  | atan => exact (realizes_atan x).bind_within fun angle _ _ => realizes_ofRadians angle unit
  | ln => exact realizes_check (realizes_ln x)
  | log => exact realizes_check (realizes_log10 hc x)
  | exp => exact realizes_exp hc x
  | tenpow => exact realizes_pow hc (ofInt 10) x
  | abs => exact realizes_ok x.abs
  | inv => exact realizes_check (realizes_div one x c)
  | sqrt => exact realizes_check (realizes_root x 2)
  | cbrt => exact realizes_root x 3
  | square => exact realizes_mul x x c
  | cube => exact (realizes_mul x x c).bind_within fun square _ _ => realizes_mul square x c
  | pow => exact (realizes_ofOutcome _).bind fun y _ _ => realizes_pow hc x y
  | root => exact (realizes_ofOutcome _).bind fun n _ _ => realizes_rootOfOrder hc x n
  | fact => exact realizes_factorial x

theorem realizes_apply (hc : c.known.Sound) (f : NamedFunction) (x : Decimal)
    (others : List Decimal) (unit : AngleUnit) :
    Realizes (f.applySteps x others unit c) (f.apply x others unit c) := by
  have heq : f.apply x others unit c = f.compute x others unit (c.widen guardDigits) >>=
      fun value => .ok (value.round c.digits) := by
    rw [apply]
    cases f.compute x others unit (c.widen guardDigits) <;> rfl
  rw [heq]
  exact (f.realizes_compute (c := c.widen guardDigits) hc x others unit).bind
    fun value _ _ => realizes_round value c.digits

end NamedFunction

/-! ### All operations -/

inductive Operation where
  | add (x y : Decimal)
  | sub (x y : Decimal)
  | mul (x y : Decimal)
  | div (x y : Decimal)
  | rem (x y : Decimal)
  | pow (x y : Decimal)
  | root (x : Decimal) (k : Nat)
  | exp (x : Decimal)
  | ln (x : Decimal)
  | log10 (x : Decimal)
  | sin (x : Decimal)
  | cos (x : Decimal)
  | tan (x : Decimal)
  | asin (x : Decimal)
  | acos (x : Decimal)
  | atan (x : Decimal)
  | call (f : NamedFunction) (x : Decimal) (others : List Decimal) (unit : AngleUnit)

namespace Operation

def outcome (c : Context) : Operation → Except CalcError Decimal
  | add x y => orOutOfRange (x.add y c)
  | sub x y => orOutOfRange (x.sub y c)
  | mul x y => orOutOfRange (x.mul y c)
  | div x y => orOutOfRange (x.div y c)
  | rem x y => orOutOfRange (x.rem y c)
  | pow x y => orOutOfRange (x.pow y c)
  | root x k => orOutOfRange (x.root k c)
  | exp x => orOutOfRange (x.exp c)
  | ln x => orOutOfRange (x.ln c)
  | log10 x => orOutOfRange (x.log10 c)
  | sin x => orOutOfRange (x.sin c)
  | cos x => orOutOfRange (x.cos c)
  | tan x => orOutOfRange (x.tan c)
  | asin x => orOutOfRange (x.asin c)
  | acos x => orOutOfRange (x.acos c)
  | atan x => orOutOfRange (x.atan c)
  | call f x others unit => f.apply x others unit c

def steps (c : Context) : Operation → Steps Decimal
  | add x y => x.addSteps y c
  | sub x y => x.subSteps y c
  | mul x y => x.mulSteps y c
  | div x y => x.divSteps y c
  | rem x y => x.remSteps y c
  | pow x y => x.powSteps y c
  | root x k => x.rootSteps k c
  | exp x => x.expSteps c
  | ln x => x.lnSteps c
  | log10 x => x.log10Steps c
  | sin x => x.sinSteps c
  | cos x => x.cosSteps c
  | tan x => x.tanSteps c
  | asin x => x.asinSteps c
  | acos x => x.acosSteps c
  | atan x => x.atanSteps c
  | call f x others unit => f.applySteps x others unit c

variable {c : Context}

theorem realizes_outcome (hc : c.known.Sound) (op : Operation) :
    Realizes (op.steps c) (op.outcome c) := by
  cases op with
  | add x y => exact x.realizes_add y c
  | sub x y => exact x.realizes_sub y c
  | mul x y => exact x.realizes_mul y c
  | div x y => exact x.realizes_div y c
  | rem x y => exact x.realizes_rem y c
  | pow x y => exact Decimal.realizes_pow hc x y
  | root x k => exact x.realizes_root k
  | exp x => exact Decimal.realizes_exp hc x
  | ln x => exact x.realizes_ln
  | log10 x => exact Decimal.realizes_log10 hc x
  | sin x => exact Decimal.realizes_sin hc x
  | cos x => exact Decimal.realizes_cos hc x
  | tan x => exact Decimal.realizes_tan hc x
  | asin x => exact x.realizes_asin
  | acos x => exact x.realizes_acos
  | atan x => exact x.realizes_atan
  | call f x others unit => exact f.realizes_apply hc x others unit

theorem computes_outcome (c : Context) (op : Operation) : Computes (op.outcome c) := by
  cases op with
  | call f x others unit => exact f.computes_apply x others unit c
  | _ => exact computes_orOutOfRange _

/-- No operation uses a primitive where it is not defined. Unless it asks for a power of ten that is
too long, its steps end with its outcome, which is a value or a failure of its argument or range. -/
theorem no_misuse (hc : c.known.Sound) (op : Operation) :
    (∀ misuse, op.steps c ≠ .error (.undefined misuse)) ∧
      (op.steps c ≠ .error .longPower → op.steps c = ofOutcome (op.outcome c)) ∧
      Computes (op.outcome c) := by
  have hrealizes := realizes_outcome hc op
  refine ⟨fun misuse hstop => ?_, hrealizes, computes_outcome c op⟩
  have hend := hrealizes (by rw [hstop]; exact undefined_ne_longPower misuse)
  rw [hstop] at hend
  cases houtcome : op.outcome c <;> rw [houtcome] at hend <;> cases hend

theorem no_misuse_acos :
    let c : Context := { Context.ofDigits 8 with known.pi := afterRequests computePi [40] }
    let op := acos (Decimal.ofScaled (-5) (-1))
    c.known.Sound ∧ (∀ misuse, op.steps c ≠ .error (.undefined misuse)) ∧
      op.steps c = .ok (Decimal.ofScaled 20943951 (-7)) ∧
      op.outcome c = .ok (Decimal.ofScaled 20943951 (-7)) := by
  intro c op
  have hknown : c.known.Sound :=
    Constants.sound_afterRequests [40] [] (by decide) (by decide)
  have hsteps : op.steps c = .ok (Decimal.ofScaled 20943951 (-7)) := by decide +kernel
  obtain ⟨hdefined, hend, -⟩ := no_misuse hknown op
  refine ⟨hknown, hdefined, hsteps, ?_⟩
  have houtcome := (hend (by rw [hsteps]; exact ok_ne_longPower _)).symm.trans hsteps
  cases hout : op.outcome c with
  | error e => rw [hout] at houtcome; cases houtcome
  | ok v => rw [hout] at houtcome; cases houtcome; rfl

end Operation

end DeskCalculator
