import DeskCalculator.Error
import DeskCalculator.FixedPoint.Constants

/-!
# Calculations in a running program

A program keeps the longest digits of the constants that its calculations have
asked for, and each calculation begins with those that the ones before it have
left. A division by zero, or a root of a negative number, ends the program for
good. So a calculation that runs begins with what is kept, and either comes to
an outcome, with what is kept from then on, or breaks the program off.
-/

set_option autoImplicit false

namespace DeskCalculator

open DeskCalculator.FixedPoint

/-- A calculation as a function of what is kept, without a value where the program breaks off. -/
abbrev Running := ExceptT CalcError (StateT Constants Option)

namespace Running

variable {α : Type}

def ofOutcome (r : Except CalcError α) : Running α := ExceptT.mk (pure r)

def within (o : Option α) : Running α := ofOutcome (orOutOfRange o)

def breakOff : Running α := ExceptT.mk fun _ => none

/-- An outcome that depends on some digits of a constant, which are kept. Zero cannot divide. -/
def asking (asked : Option Ask) (outcome : Constants → Except CalcError α) : Running α :=
  ExceptT.mk fun known =>
    match asked with
    | none => some (outcome known, known)
    | some a =>
      if a.divides ∧ (known.after a).answer a = 0 then none
      else some (outcome (known.after a), known.after a)

end Running

end DeskCalculator
