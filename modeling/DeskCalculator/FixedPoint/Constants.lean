import DeskCalculator.FixedPoint.Series
import DeskCalculator.Natural.Digits

/-!
# The circle constant and the logarithm of ten

Both constants are integers scaled by a power of ten, summed from series in
inverse powers with ten digits more than were asked for. Since a longer value
serves every shorter request, the longest one computed so far can be kept: a
request within its length is answered by dropping digits.
-/

set_option autoImplicit false

namespace DeskCalculator.FixedPoint

open DeskCalculator.Natural

/-- Digits computed beyond those asked for, to absorb the truncation of each term. -/
def extraDigits : Nat := 10

def arctanInverse (q : Nat) (positive : 0 < q) (scale : Nat) : Int :=
  alternating (inverseTerms q positive scale q 0)

def artanhInverse (q : Nat) (positive : 0 < q) (scale : Nat) : Nat :=
  total (inverseTerms q positive scale q 0)

/-- The digits of `π = 16 arctan (1/5) - 4 arctan (1/239)`. -/
def computePi (digits : Nat) : Int :=
  let scale := powerOfTen (digits + extraDigits)
  let value := 16 * arctanInverse 5 (by decide) scale - 4 * arctanInverse 239 (by decide) scale
  value.tdiv (tens extraDigits)

/-- The digits of `ln 10 = 3 ln 2 + ln (5/4)`, each logarithm being twice an inverse
hyperbolic tangent. -/
def computeLn10 (digits : Nat) : Int :=
  let scale := powerOfTen (digits + extraDigits)
  let ln2 := 2 * artanhInverse 3 (by decide) scale
  let lnFiveQuarters := 2 * artanhInverse 9 (by decide) scale
  ((3 * ln2 + lnFiveQuarters : Nat) : Int).tdiv (tens extraDigits)

structure Longest where
  digits : Nat
  value : Int
  deriving DecidableEq, Repr

def computeAndKeep (compute : Nat → Int) (digits : Nat) : Int × Option Longest :=
  let value := compute digits
  (value, some ⟨digits, value⟩)

/-- Answers a request for `digits` digits, from the value already known if it is
long enough, and gives the longest value known afterwards. -/
def request (compute : Nat → Int) (known : Option Longest) (digits : Nat) :
    Int × Option Longest :=
  match known with
  | some longest =>
    if digits ≤ longest.digits then
      (longest.value.tdiv (powerOfTen (longest.digits - digits)), known)
    else computeAndKeep compute digits
  | none => computeAndKeep compute digits

structure Constants where
  pi : Option Longest := none
  ln10 : Option Longest := none
  deriving DecidableEq, Repr

namespace Constants

def piDigits (known : Constants) (digits : Nat) : Int := (request computePi known.pi digits).1

def ln10Digits (known : Constants) (digits : Nat) : Int :=
  (request computeLn10 known.ln10 digits).1

end Constants

/-! ### What a program keeps -/

inductive Kept where
  | pi
  | ln10
  deriving DecidableEq, Repr

structure Ask where
  constant : Kept
  digits : Nat
  divides : Bool := false
  deriving DecidableEq, Repr

namespace Constants

def answer (known : Constants) (a : Ask) : Int :=
  match a.constant with
  | .pi => known.piDigits a.digits
  | .ln10 => known.ln10Digits a.digits

def after (known : Constants) (a : Ask) : Constants :=
  match a.constant with
  | .pi => { known with pi := (request computePi known.pi a.digits).2 }
  | .ln10 => { known with ln10 := (request computeLn10 known.ln10 a.digits).2 }

end Constants

end DeskCalculator.FixedPoint
