import DeskCalculator.Decimal.Rounding

/-!
# Preferences

The angle unit, the number of significant digits, the mode of the keyboard and
the length of the history. The stored precision may be anything; a calculation
never uses fewer digits than the floor.
-/

set_option autoImplicit false

namespace DeskCalculator

inductive AngleUnit where
  | degree
  | radian
  | gradian
  deriving DecidableEq, Repr

inductive Mode where
  | standard
  | scientific
  deriving DecidableEq, Repr

structure Preferences where
  angleUnit : AngleUnit := .degree
  precision : UInt32 := 28
  mode : Mode := .standard
  maxHistory : UInt64 := 100
  deriving DecidableEq, Repr

namespace Preferences

def minPrecision : UInt32 := 28

def maxImportedPrecision : UInt32 := 100

def maxHistoryLimit : UInt64 := 500

def effectivePrecision (p : Preferences) : Nat := (max p.precision minPrecision).toNat

def context (p : Preferences) : Context := Context.ofDigits p.effectivePrecision

/-- Raises the precision to its floor and holds the history length between one and its limit. -/
def normalized (p : Preferences) : Preferences :=
  { p with
    precision := max p.precision minPrecision
    maxHistory := max 1 (min p.maxHistory maxHistoryLimit) }

/-- Preferences as they are taken from a file: the precision is capped as well. -/
def imported (p : Preferences) : Preferences :=
  normalized { p with precision := min p.precision maxImportedPrecision }

structure Update where
  angleUnit : Option AngleUnit := none
  precision : Option UInt32 := none
  mode : Option Mode := none
  maxHistory : Option UInt64 := none
  deriving DecidableEq, Repr

def override (p : Preferences) (u : Update) : Preferences where
  angleUnit := u.angleUnit.getD p.angleUnit
  precision := u.precision.getD p.precision
  mode := u.mode.getD p.mode
  maxHistory := u.maxHistory.getD p.maxHistory

def apply (p : Preferences) (u : Update) : Preferences := (p.override u).normalized

end Preferences

end DeskCalculator
