import DeskCalculator.Decimal.Numeral
import DeskCalculator.Expression.Parser
import DeskCalculator.NamedFunction

/-!
# Evaluation

The value of a tree, and the way from a text to its value. Every operation
rounds to the digits in force, and the value of a whole expression is rounded
once more, since a literal is taken with all its digits.
-/

set_option autoImplicit false

namespace DeskCalculator

def BinaryOp.apply (op : BinaryOp) (x y : Decimal) (c : Context) : Except CalcError Decimal :=
  match op with
  | add => orOutOfRange (x.add y c)
  | sub => orOutOfRange (x.sub y c)
  | mul => orOutOfRange (x.mul y c)
  | div => if y.isZero then .error .divisionByZero else orOutOfRange (x.div y c)
  | mod => if y.isZero then .error .moduloByZero else orOutOfRange (x.rem y c)
  | pow => orOutOfRange (x.pow y c)

def SignOp.apply : SignOp → Decimal → Decimal
  | plus, x => x
  | minus, x => -x

def Constant.value : Constant → Context → Decimal
  | pi, c => Decimal.pi c
  | e, c => Decimal.e c

namespace Expr

mutual

/-- The value of a tree before the last rounding. A call is looked up before its
arguments are evaluated. -/
def eval (unit : AngleUnit) (c : Context) : Expr → Except CalcError Decimal
  | literal text =>
    match Decimal.read? text with
    | some x => .ok x
    | none => .error (.invalidNumeral text)
  | constant k => .ok (k.value c)
  | signed op x => (x.eval unit c).map op.apply
  | binary op a b => do
    let x ← a.eval unit c
    let y ← b.eval unit c
    op.apply x y c
  | call name args =>
    match NamedFunction.ofName? name with
    | none => .error (.unknownFunction name)
    | some f => do
      match ← evalAll unit c args with
      | [] => .error (.callWithoutArgument name)
      | x :: others => f.apply x others unit c

def evalAll (unit : AngleUnit) (c : Context) : List Expr → Except CalcError (List Decimal)
  | [] => .ok []
  | a :: rest => do
    let x ← a.eval unit c
    let xs ← evalAll unit c rest
    return x :: xs

end

def read (t : Text) : Except CalcError Expr := (Token.readAll t).bind ofTokens

def validate (t : Text) : Except CalcError Unit :=
  if t.trim.isEmpty then .error .blankExpression else (read t.trim).map fun _ => ()

structure Outline where
  tokens : Text
  tree : Text
  deriving DecidableEq, Repr

def outline (t : Text) : Except CalcError Outline := do
  let tokens ← Token.readAll t.trim
  let tree ← ofTokens tokens
  return ⟨Token.writeAll tokens, tree.write⟩

end Expr

namespace Preferences

def evaluate (p : Preferences) (tree : Expr) : Except CalcError Decimal :=
  (tree.eval p.angleUnit p.context).map (·.round p.context.digits)

/-- The value of a text under the preferences; a blank text has the value zero. -/
def evaluateText (p : Preferences) (t : Text) : Except CalcError Decimal :=
  if t.trim.isEmpty then .ok Decimal.zero else (Expr.read t.trim).bind p.evaluate

end Preferences

end DeskCalculator
