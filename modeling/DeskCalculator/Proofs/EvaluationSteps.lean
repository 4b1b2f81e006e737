import DeskCalculator.Expression.Evaluation
import DeskCalculator.Proofs.FunctionSteps

/-!
# The steps of an evaluation

The value of a tree, and of a text, as steps over primitives: those of the constants, operations and
functions, in the order in which the tree asks for them. A zero divisor is found before the division
is asked for. So an evaluation ends with its value or its failure, and never because a primitive
was used where it is not defined.
-/

set_option autoImplicit false

namespace DeskCalculator

open DeskCalculator.Steps

variable {c : Context}

namespace Decimal

open DeskCalculator.Natural

def eSteps (c : Context) : Steps Decimal := do
  let w := c.digits + guardDigits
  let ⟨power, _⟩ ← tenTo w
  let value ← FixedPoint.expSteps power w
  let x ← ofScaledSteps value (-w)
  roundSteps x c.digits

theorem realizes_e (c : Context) : Realizes (eSteps c) (.ok (e c)) := by
  unfold eSteps e
  refine realizes_tenTo fun hlong => ?_
  simp only [powerOfTen_eq _ hlong]
  refine (FixedPoint.realizes_exp _ _).pass fun _ => (realizes_ofScaled _ _).pass fun _ => ?_
  exact realizes_round _ c.digits

end Decimal

def Constant.steps : Constant → Context → Steps Decimal
  | pi, c => Decimal.piSteps c
  | e, c => Decimal.eSteps c

theorem Constant.realizes_value (k : Constant) (c : Context) :
    Realizes (k.steps c) (.ok (k.value c)) := by
  cases k with
  | pi => exact Decimal.realizes_pi c
  | e => exact Decimal.realizes_e c

def BinaryOp.steps (op : BinaryOp) (x y : Decimal) (c : Context) : Steps Decimal :=
  match op with
  | add => x.addSteps y c
  | sub => x.subSteps y c
  | mul => x.mulSteps y c
  | div => if y.isZero then ofOutcome (.error .divisionByZero) else x.divSteps y c
  | mod => if y.isZero then ofOutcome (.error .moduloByZero) else x.remSteps y c
  | pow => x.powSteps y c

theorem BinaryOp.realizes_apply (hc : c.known.Sound) (op : BinaryOp) (x y : Decimal) :
    Realizes (op.steps x y c) (op.apply x y c) := by
  cases op with
  | add => exact x.realizes_add y c
  | sub => exact x.realizes_sub y c
  | mul => exact x.realizes_mul y c
  | div => exact NamedFunction.realizes_check (x.realizes_div y c)
  | mod => exact NamedFunction.realizes_check (x.realizes_rem y c)
  | pow => exact Decimal.realizes_pow hc x y

namespace Expr

mutual

def evalSteps (unit : AngleUnit) (c : Context) : Expr → Steps Decimal
  | literal text =>
    match Decimal.read? text with
    | some x => return x
    | none => ofOutcome (.error (.invalidNumeral text))
  | constant k => k.steps c
  | signed op x => do
    let x ← x.evalSteps unit c
    return op.apply x
  | binary op a b => do
    let x ← a.evalSteps unit c
    let y ← b.evalSteps unit c
    op.steps x y c
  | call name args =>
    match NamedFunction.ofName? name with
    | none => ofOutcome (.error (.unknownFunction name))
    | some f => do
      match ← evalAllSteps unit c args with
      | [] => ofOutcome (.error (.callWithoutArgument name))
      | x :: others => f.applySteps x others unit c

def evalAllSteps (unit : AngleUnit) (c : Context) : List Expr → Steps (List Decimal)
  | [] => return []
  | a :: rest => do
    let x ← a.evalSteps unit c
    let xs ← evalAllSteps unit c rest
    return x :: xs

end

mutual

theorem realizes_eval (hc : c.known.Sound) (unit : AngleUnit) :
    ∀ tree : Expr, Realizes (tree.evalSteps unit c) (tree.eval unit c)
  | literal text => by
    rw [evalSteps, eval]
    cases Decimal.read? text with
    | none => exact realizes_ofOutcome _
    | some x => exact realizes_ok x
  | constant k => by
    rw [evalSteps, eval]
    exact k.realizes_value c
  | signed op x => by
    have hmap : (x.eval unit c).map op.apply = x.eval unit c >>= fun x => .ok (op.apply x) := by
      cases x.eval unit c <;> rfl
    rw [evalSteps, eval, hmap]
    exact (realizes_eval hc unit x).bind fun x _ _ => realizes_ok _
  | binary op a b => by
    rw [evalSteps, eval]
    refine (realizes_eval hc unit a).bind fun x _ _ => ?_
    exact (realizes_eval hc unit b).bind fun y _ _ => op.realizes_apply hc x y
  | call name args => by
    rw [evalSteps, eval]
    cases NamedFunction.ofName? name with
    | none => exact realizes_ofOutcome _
    | some f =>
      refine (realizes_evalAll hc unit args).bind fun values _ _ => ?_
      cases values with
      | nil => exact realizes_ofOutcome _
      | cons x others => exact f.realizes_apply hc x others unit

theorem realizes_evalAll (hc : c.known.Sound) (unit : AngleUnit) :
    ∀ trees : List Expr, Realizes (evalAllSteps unit c trees) (evalAll unit c trees)
  | [] => by
    rw [evalAllSteps, evalAll]
    exact realizes_ok _
  | a :: rest => by
    rw [evalAllSteps, evalAll]
    refine (realizes_eval hc unit a).bind fun x _ _ => ?_
    exact (realizes_evalAll hc unit rest).bind fun xs _ _ => realizes_ok _

end

end Expr

namespace Preferences

def evaluateSteps (p : Preferences) (tree : Expr) : Steps Decimal := do
  let x ← tree.evalSteps p.angleUnit p.context
  Decimal.roundSteps x p.context.digits

def evaluateTextSteps (p : Preferences) (t : Text) : Steps Decimal :=
  if t.trim.isEmpty then return Decimal.zero
  else do
    let tree ← ofOutcome (Expr.read t.trim)
    p.evaluateSteps tree

variable (p : Preferences)

theorem sound_known : p.context.known.Sound :=
  FixedPoint.Constants.sound_afterRequests [] [] (by simp) (by simp)

theorem realizes_evaluate (tree : Expr) : Realizes (p.evaluateSteps tree) (p.evaluate tree) := by
  have hmap : p.evaluate tree = tree.eval p.angleUnit p.context >>=
      fun x => .ok (x.round p.context.digits) := by
    rw [evaluate]
    cases tree.eval p.angleUnit p.context <;> rfl
  rw [hmap]
  exact (Expr.realizes_eval p.sound_known p.angleUnit tree).bind
    fun x _ _ => Decimal.realizes_round x p.context.digits

theorem realizes_evaluateText (t : Text) :
    Realizes (p.evaluateTextSteps t) (p.evaluateText t) := by
  unfold evaluateTextSteps evaluateText
  split
  · exact realizes_ok _
  · exact (realizes_ofOutcome _).bind fun tree _ _ => p.realizes_evaluate tree

end Preferences

end DeskCalculator
