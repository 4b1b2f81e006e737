import DeskCalculator.Decimal.Circular
import DeskCalculator.Decimal.Exponential
import DeskCalculator.Error
import DeskCalculator.Preferences

/-!
# Named functions

The functions that an expression can call. Each works on a first argument;
`pow` and `root` take a second, and further arguments are ignored. Angles are
converted from and to the unit in force. A function is computed with a few
digits more than are kept and rounded at the end.
-/

set_option autoImplicit false

namespace DeskCalculator

inductive NamedFunction where
  | sin | cos | tan | asin | acos | atan
  | ln | log | exp | tenpow
  | abs | inv | sqrt | cbrt | square | cube
  | pow | root | fact
  deriving DecidableEq, Repr

/-- Half a turn, as a number of units; a radian is the unit of the functions themselves. -/
def AngleUnit.halfTurn? : AngleUnit → Option Decimal
  | .degree => some (Decimal.ofInt 180)
  | .radian => none
  | .gradian => some (Decimal.ofInt 200)

namespace Decimal

def toRadians (x : Decimal) (unit : AngleUnit) (c : Context) : Option Decimal :=
  match unit.halfTurn? with
  | none => some x
  | some halfTurn => (x.mul (pi c) c).bind (·.div halfTurn c)

def ofRadians (x : Decimal) (unit : AngleUnit) (c : Context) : Option Decimal :=
  match unit.halfTurn? with
  | none => some x
  | some halfTurn => (x.mul halfTurn c).bind (·.div (pi c) c)

/-- Multiplies `acc` by the counter and raises the counter by one, as long as it has not
passed `n`. The first argument bounds the number of counter values. -/
def factorialLoop (n : Decimal) (c : Context) : Nat → Decimal → Decimal → Option Decimal
  | 0, _, acc => some acc
  | steps + 1, counter, acc =>
    if counter.cmp n = .gt then some acc
    else do
      let acc ← acc.mul counter c
      let counter ← counter.add one c
      factorialLoop n c steps counter acc

def naturalValue (n : Decimal) : Nat := n.mantissa.natAbs * Natural.tens n.exponent.toNat

/-- The product of the integers from two to `n`, rounded at each step. A counter of
`10 ^ digits` no longer grows when one is added, so a larger `n` is never passed while
the product grows beyond the range. -/
def factorial (n : Decimal) (c : Context) : Except CalcError Decimal :=
  if !n.isInteger || n.isNegative then .error .factorialOfNonNatural
  else if c.digits ≤ n.adjusted then .error .outOfRange
  else orOutOfRange (factorialLoop n c n.naturalValue (ofInt 2) one)

/-- The root of order `n`: exact for a small order and a nonnegative radicand, and
otherwise the power `1 / n`. -/
def rootOfOrder (x n : Decimal) (c : Context) : Except CalcError Decimal :=
  let byPower := orOutOfRange ((one.div n c).bind (x.pow · c))
  if n.isZero then .error .rootOfOrderZero
  else if x.isNegative && n.isEven then .error .evenRootOfNegative
  else
    match n.toWord? with
    | some k =>
      if !x.isNegative && k.natAbs ≤ maxRootOrder then
        orOutOfRange ((x.root k.natAbs c).bind fun r => if k < 0 then one.div r c else some r)
      else byPower
    | none => byPower

end Decimal

namespace NamedFunction

open Decimal

def all : List NamedFunction :=
  [sin, cos, tan, asin, acos, atan, ln, log, exp, tenpow, abs, inv, sqrt, cbrt, square, cube,
    pow, root, fact]

def name : NamedFunction → Text
  | sin => "sin".toList
  | cos => "cos".toList
  | tan => "tan".toList
  | asin => "asin".toList
  | acos => "acos".toList
  | atan => "atan".toList
  | ln => "ln".toList
  | log => "log".toList
  | exp => "exp".toList
  | tenpow => "tenpow".toList
  | abs => "abs".toList
  | inv => "inv".toList
  | sqrt => "sqrt".toList
  | cbrt => "cbrt".toList
  | square => "square".toList
  | cube => "cube".toList
  | pow => "pow".toList
  | root => "root".toList
  | fact => "fact".toList

def ofName? (text : Text) : Option NamedFunction := all.find? (·.name = text)

def second (f : NamedFunction) : List Decimal → Except CalcError Decimal
  | y :: _ => .ok y
  | [] => .error (.missingSecondArgument f.name)

def compute (f : NamedFunction) (x : Decimal) (others : List Decimal) (unit : AngleUnit)
    (c : Context) : Except CalcError Decimal :=
  match f with
  | sin => orOutOfRange ((x.toRadians unit c).bind (·.sin c))
  | cos => orOutOfRange ((x.toRadians unit c).bind (·.cos c))
  | tan => orOutOfRange ((x.toRadians unit c).bind (·.tan c))
  | asin => orOutOfRange ((x.asin c).bind (·.ofRadians unit c))
  | acos => orOutOfRange ((x.acos c).bind (·.ofRadians unit c))
  | atan => orOutOfRange ((x.atan c).bind (·.ofRadians unit c))
  | ln => if x.isNegative || x.isZero then .error .lnOfNonPositive else orOutOfRange (x.ln c)
  | log => if x.isNegative || x.isZero then .error .logOfNonPositive else orOutOfRange (x.log10 c)
  | exp => orOutOfRange (x.exp c)
  | tenpow => orOutOfRange ((ofInt 10).pow x c)
  | abs => .ok x.abs
  | inv => if x.isZero then .error .inverseOfZero else orOutOfRange (one.div x c)
  | sqrt => if x.isNegative then .error .squareRootOfNegative else orOutOfRange (x.sqrt c)
  | cbrt => orOutOfRange (x.cbrt c)
  | square => orOutOfRange (x.mul x c)
  | cube => orOutOfRange ((x.mul x c).bind (·.mul x c))
  | pow => (f.second others).bind fun y => orOutOfRange (x.pow y c)
  | root => (f.second others).bind fun n => x.rootOfOrder n c
  | fact => x.factorial c

def guardDigits : Nat := 5

def apply (f : NamedFunction) (x : Decimal) (others : List Decimal) (unit : AngleUnit)
    (c : Context) : Except CalcError Decimal :=
  (f.compute x others unit (c.widen guardDigits)).map (·.round c.digits)

end NamedFunction

end DeskCalculator
