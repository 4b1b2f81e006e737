import DeskCalculator.Entry
import DeskCalculator.Expression.Running

/-!
# The buffer

The text under edit, the result it was last evaluated to, and a memory. Any
change of the text forgets the result. An operation that fails gives no buffer,
so nothing of it can have changed.
-/

set_option autoImplicit false

namespace DeskCalculator

open DeskCalculator.FixedPoint

inductive BufferError where
  | noEntry
  | invalidEntry
  | nothingToStore
  | nothingToAdd
  | nothingToSubtract
  | emptyMemory
  deriving DecidableEq, Repr

def BufferError.message : BufferError → Text
  | noEntry => "aucun nombre à convertir en pourcentage".toList
  | invalidEntry => "le nombre courant ne peut pas être converti en pourcentage".toList
  | nothingToStore => "aucune valeur à mettre en mémoire".toList
  | nothingToAdd => "aucune valeur à ajouter à la mémoire".toList
  | nothingToSubtract => "aucune valeur à retrancher de la mémoire".toList
  | emptyMemory => "mémoire vide".toList

inductive MemoryAction where
  | clear
  | store
  | add
  | subtract
  | recall
  deriving DecidableEq, Repr

structure MemoryEffect where
  cleared : Bool := false
  /-- A result was replaced, so it is no longer to be shown. -/
  blanksResult : Bool := false
  deriving DecidableEq, Repr

structure Buffer where
  text : Text := []
  lastResult : Option Decimal := none
  memory : Option Decimal := none
  deriving DecidableEq

namespace Buffer

def setText (b : Buffer) (t : Text) : Buffer := { b with text := t, lastResult := none }

def append (b : Buffer) (t : Text) : Buffer := b.setText (b.text ++ t)

def setResult (b : Buffer) (x : Decimal) : Buffer := { b with lastResult := some x }

def deleteLast (b : Buffer) : Buffer := b.setText b.text.dropLast

def clear (b : Buffer) : Buffer := b.setText []

def clearEntry (b : Buffer) : Buffer :=
  match Entry.last? b.text with
  | some e => b.setText e.before
  | none => b.clear

def oppositeEntry : Text → Text
  | '-' :: rest => rest
  | entry => '-' :: entry

def toggleSign (b : Buffer) : Bool × Buffer :=
  match Entry.last? b.text with
  | some e => (true, b.setText (e.replace (oppositeEntry e.entry)))
  | none => (false, { b with lastResult := none })

/-- The value of an expression, which is that under the preferences unless `value` says else. -/
def valueOf? (p : Preferences) (t : Text)
    (value : Text → Except CalcError Decimal := p.evaluateText) : Option Decimal := do
  (Expr.validate t).toOption
  (value t).toOption

def percentBaseText? (before : Text) : Option Text := do
  let left ← Entry.lastOperator? before
  let operand ← Entry.lastOperand? left
  return operand.trim

def percentBase? (p : Preferences) (before : Text)
    (value : Text → Except CalcError Decimal := p.evaluateText) : Option Decimal :=
  (percentBaseText? before).bind (valueOf? p · value)

/-- Replaces the last entry by that many hundredths of the base, or of one. -/
def percent (b : Buffer) (p : Preferences)
    (value : Text → Except CalcError Decimal := p.evaluateText) : Except BufferError Buffer :=
  match Entry.last? b.text with
  | none => .error .noEntry
  | some e =>
    match Decimal.read? e.entry with
    | none => .error .invalidEntry
    | some x =>
      let scaled := ((percentBase? p e.before value).bind (·.mul x p.context)).getD x
      match scaled.div (Decimal.ofInt 100) p.context with
      | none => .error .invalidEntry
      | some y => .ok (b.setText (e.replace y.write))

def entryValue? (t : Text) : Option Decimal := do
  let e ← Entry.last? t
  Decimal.read? e.entry

/-- The value that the memory keys work on: the last result, else the last entry, else
the value of the whole text. -/
def currentValue? (b : Buffer) (p : Preferences)
    (value : Text → Except CalcError Decimal := p.evaluateText) : Option Decimal :=
  match b.lastResult with
  | some x => some x
  | none => (entryValue? b.text).orElse fun _ => valueOf? p b.text.trim value

def remember (b : Buffer) (x : Decimal) : MemoryEffect × Buffer :=
  ({}, { b with memory := some x })

/-- Writes the memory in place of a result, else of the last entry, else at the end. -/
def recallMemory (b : Buffer) (m : Decimal) : MemoryEffect × Buffer :=
  if b.lastResult.isSome then ({ blanksResult := true }, b.setText m.write)
  else
    match Entry.last? b.text with
    | some e => ({}, b.setText (e.replace m.write))
    | none => ({}, b.append m.write)

def orError {α : Type} (e : BufferError) : Option α → Except BufferError α
  | some x => .ok x
  | none => .error e

def actOnMemory (b : Buffer) (p : Preferences) (action : MemoryAction)
    (value : Text → Except CalcError Decimal := p.evaluateText) :
    Except BufferError (MemoryEffect × Buffer) :=
  match action with
  | .clear => .ok ({ cleared := true }, { b with memory := none })
  | .store => (orError .nothingToStore (b.currentValue? p value)).map b.remember
  | .add => do
    let x ← orError .nothingToAdd (b.currentValue? p value)
    match b.memory with
    | none => return b.remember x
    | some m => return b.remember (← orError .nothingToAdd (m.add x p.context))
  | .subtract => do
    let x ← orError .nothingToSubtract (b.currentValue? p value)
    match b.memory with
    | none => return b.remember (-x)
    | some m => return b.remember (← orError .nothingToSubtract (m.sub x p.context))
  | .recall => (orError .emptyMemory b.memory).map b.recallMemory

/-! ### What the operations need -/

structure Needs where
  entry : Option Text := none
  expression : Option Text := none
  deriving DecidableEq

def expression? (t : Text) : Option Text := (Expr.validate t).toOption.map fun _ => t

def percentNeeds (b : Buffer) : Needs :=
  match Entry.last? b.text with
  | none => {}
  | some e =>
    { entry := some e.entry
      expression := (Decimal.read? e.entry).bind fun _ =>
        (percentBaseText? e.before).bind expression? }

def currentNeeds (b : Buffer) : Needs :=
  if b.lastResult.isSome then {}
  else
    { entry := (Entry.last? b.text).map (·.entry)
      expression := if (entryValue? b.text).isSome then none else expression? b.text.trim }

def memoryNeeds (b : Buffer) : MemoryAction → Needs
  | .store | .add | .subtract => b.currentNeeds
  | .clear | .recall => {}

/-- Does what needs no more than these in a running program. A place that 64 bits do not count
breaks it off as well. -/
def Needs.meet {α : Type} (needs : Needs) (p : Preferences)
    (result : (Text → Except CalcError Decimal) → α) : StateT Constants Option α :=
  if needs.entry.all Decimal.readsInWords then
    match needs.expression with
    | none => pure (result p.evaluateText)
    | some t => do
      let value ← (p.evaluateTextRunning t).run
      return result fun _ => value
  else failure

def percentRunning (b : Buffer) (p : Preferences) :
    StateT Constants Option (Except BufferError Buffer) :=
  b.percentNeeds.meet p (b.percent p ·)

def currentValueRunning? (b : Buffer) (p : Preferences) :
    StateT Constants Option (Option Decimal) :=
  b.currentNeeds.meet p (b.currentValue? p ·)

def actOnMemoryRunning (b : Buffer) (p : Preferences) (action : MemoryAction) :
    StateT Constants Option (Except BufferError (MemoryEffect × Buffer)) :=
  (b.memoryNeeds action).meet p (b.actOnMemory p action ·)

end Buffer

end DeskCalculator
