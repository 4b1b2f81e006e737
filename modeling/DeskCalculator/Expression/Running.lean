import DeskCalculator.Decimal.Running
import DeskCalculator.Expression.Evaluation

/-!
# Evaluation in a running program

The functions, operations and trees once more, now with what they find kept of
the constants and what they leave behind. A failure ends an evaluation, and
what was asked for until then stays.
-/

set_option autoImplicit false

namespace DeskCalculator

open DeskCalculator.FixedPoint Running

namespace Decimal

def toRadiansRunning (x : Decimal) (unit : AngleUnit) (c : Context) : Running Decimal :=
  asking (unit.halfTurn?.map fun _ => piAsk c) fun known =>
    orOutOfRange (x.toRadians unit (c.knowing known))

def ofRadiansRunning (x : Decimal) (unit : AngleUnit) (c : Context) : Running Decimal :=
  asking ((unit.halfTurn?.bind (x.mul · c)).map fun _ => piAsk c) fun known =>
    orOutOfRange (x.ofRadians unit (c.knowing known))

def rootIsPower (x n : Decimal) : Bool :=
  !n.isZero && !(x.isNegative && n.isEven) &&
    match n.toWord? with
    | some k => x.isNegative || maxRootOrder < k.natAbs
    | none => true

def rootOfOrderRunning (x n : Decimal) (c : Context) : Running Decimal :=
  if x.rootIsPower n then do
    let inverse ← within (one.div n c)
    x.powRunning inverse c
  else ofOutcome (x.rootOfOrder n c)

end Decimal

namespace NamedFunction

open Decimal

def computeRunning (f : NamedFunction) (x : Decimal) (others : List Decimal) (unit : AngleUnit)
    (c : Context) : Running Decimal :=
  match f with
  | sin => do (← x.toRadiansRunning unit c).sinRunning c
  | cos => do (← x.toRadiansRunning unit c).cosRunning c
  | tan => do (← x.toRadiansRunning unit c).tanRunning c
  | asin => do (← x.asinRunning c).ofRadiansRunning unit c
  | acos => do (← x.acosRunning c).ofRadiansRunning unit c
  | atan => do (← x.atanRunning c).ofRadiansRunning unit c
  | ln => if x.isNegative || x.isZero then throw .lnOfNonPositive else x.lnRunning c
  | log => if x.isNegative || x.isZero then throw .logOfNonPositive else x.log10Running c
  | exp => x.expRunning c
  | tenpow => (ofInt 10).powRunning x c
  | pow => do x.powRunning (← ofOutcome (f.second others)) c
  | root => do x.rootOfOrderRunning (← ofOutcome (f.second others)) c
  | abs | inv | sqrt | cbrt | square | cube | fact => ofOutcome (f.compute x others unit c)

def applyRunning (f : NamedFunction) (x : Decimal) (others : List Decimal) (unit : AngleUnit)
    (c : Context) : Running Decimal := do
  let value ← f.computeRunning x others unit (c.widen guardDigits)
  return value.round c.digits

end NamedFunction

def BinaryOp.applyRunning (op : BinaryOp) (x y : Decimal) (c : Context) : Running Decimal :=
  match op with
  | pow => x.powRunning y c
  | add | sub | mul | div | mod => ofOutcome (op.apply x y c)

def Constant.valueRunning : Constant → Context → Running Decimal
  | pi, c => asking (some (Decimal.piAsk c)) fun known => .ok (Decimal.pi (c.knowing known))
  | e, c => pure (Decimal.e c)

namespace Expr

mutual

def evalRunning (unit : AngleUnit) (c : Context) : Expr → Running Decimal
  | literal text =>
    match Decimal.read? text with
    | some x => pure x
    | none => throw (.invalidNumeral text)
  | constant k => k.valueRunning c
  | signed op x => do return op.apply (← x.evalRunning unit c)
  | binary op a b => do
    let x ← a.evalRunning unit c
    let y ← b.evalRunning unit c
    op.applyRunning x y c
  | call name args =>
    match NamedFunction.ofName? name with
    | none => throw (.unknownFunction name)
    | some f => do
      match ← evalAllRunning unit c args with
      | [] => throw (.callWithoutArgument name)
      | x :: others => f.applyRunning x others unit c

def evalAllRunning (unit : AngleUnit) (c : Context) : List Expr → Running (List Decimal)
  | [] => pure []
  | a :: rest => do
    let x ← a.evalRunning unit c
    let xs ← evalAllRunning unit c rest
    return x :: xs

end

end Expr

namespace Preferences

def evaluateRunning (p : Preferences) (tree : Expr) : Running Decimal := do
  let x ← tree.evalRunning p.angleUnit p.context
  return x.round p.context.digits

def evaluateTextRunning (p : Preferences) (t : Text) : Running Decimal :=
  if t.trim.isEmpty then pure Decimal.zero
  else do
    let tree ← ofOutcome (Expr.read t.trim)
    p.evaluateRunning tree

end Preferences

end DeskCalculator
