import DeskCalculator.Desk.Buffer
import DeskCalculator.Proofs.EvaluationSteps
import DeskCalculator.Proofs.ScanSteps

/-!
# The operations on a buffer by position

The operations on a buffer once more, as they cut its text: each asks for the bounds of the last
entry in bytes, and slices, truncates or overwrites the text there. Whatever the calculator answers
that an operation is given, none of them uses a position where there is none, and they do what the
operations do that know nothing of positions. The calculator of some preferences does not use a
primitive where it is not defined either, so no sequence of operations goes wrong.
-/

set_option autoImplicit false

namespace DeskCalculator

open Entry Text

/-- What the buffer asks its calculator for: the value of a trimmed text that is an expression, and
the operations on numbers. -/
structure Calculator where
  value? : Text → Option Decimal
  add : Decimal → Decimal → Option Decimal
  sub : Decimal → Decimal → Option Decimal
  mul : Decimal → Decimal → Option Decimal
  div : Decimal → Decimal → Option Decimal

def Preferences.calculator (p : Preferences)
    (value : Text → Except CalcError Decimal := p.evaluateText) : Calculator where
  value? t := Buffer.valueOf? p t value
  add x y := x.add y p.context
  sub x y := x.sub y p.context
  mul x y := x.mul y p.context
  div x y := x.div y p.context

namespace Buffer

variable (b : Buffer) (engine : Calculator)

/-! ### The operations with any calculator -/

def baseWith? (before : Text) : Option Decimal := do
  let left ← lastOperator? before
  let operand ← lastOperand? left
  engine.value? operand.trim

def percentWith : Except BufferError Buffer :=
  match last? b.text with
  | none => .error .noEntry
  | some e =>
    match Decimal.read? e.entry with
    | none => .error .invalidEntry
    | some x =>
      let scaled := ((baseWith? engine e.before).bind (engine.mul · x)).getD x
      match engine.div scaled (Decimal.ofInt 100) with
      | none => .error .invalidEntry
      | some value => .ok (b.setText (e.replace value.write))

def currentValueWith? : Option Decimal :=
  match b.lastResult with
  | some x => some x
  | none => (entryValue? b.text).orElse fun _ => engine.value? b.text.trim

def accumulate (e : BufferError) (seed : Decimal → Decimal)
    (op : Decimal → Decimal → Option Decimal) (value : Option Decimal) :
    Except BufferError (MemoryEffect × Buffer) := do
  let x ← orError e value
  match b.memory with
  | none => return b.remember (seed x)
  | some m => return b.remember (← orError e (op m x))

def actOnMemoryWith (action : MemoryAction) : Except BufferError (MemoryEffect × Buffer) :=
  match action with
  | .clear => .ok ({ cleared := true }, { b with memory := none })
  | .store => (orError .nothingToStore (b.currentValueWith? engine)).map b.remember
  | .add => b.accumulate .nothingToAdd id engine.add (b.currentValueWith? engine)
  | .subtract => b.accumulate .nothingToSubtract (-·) engine.sub (b.currentValueWith? engine)
  | .recall => (orError .emptyMemory b.memory).map b.recallMemory

theorem baseWith?_calculator (p : Preferences) (value : Text → Except CalcError Decimal)
    (before : Text) : baseWith? (p.calculator value) before = percentBase? p before value := by
  rw [baseWith?, percentBase?, percentBaseText?]
  cases lastOperator? before with
  | none => rfl
  | some left => cases hoperand : lastOperand? left <;> simp [hoperand, Preferences.calculator]

theorem with_calculator (p : Preferences) (value : Text → Except CalcError Decimal) :
    b.percentWith (p.calculator value) = b.percent p value ∧
      b.currentValueWith? (p.calculator value) = b.currentValue? p value ∧
      ∀ action, b.actOnMemoryWith (p.calculator value) action = b.actOnMemory p action value := by
  refine ⟨?_, rfl, fun action => by cases action <;> rfl⟩
  simp only [percentWith, baseWith?_calculator]
  rfl

/-! ### Calls -/

/-- The operations, some of them with a calculator or with what stands for one. -/
inductive Call (ε : Type) where
  | append (t : Text)
  | setText (t : Text)
  | setResult (x : Decimal)
  | deleteLast
  | clear
  | clearEntry
  | toggleSign
  | percent (engine : ε)
  | currentValue (engine : ε)
  | memory (engine : ε) (action : MemoryAction)

inductive Answer where
  | done
  | found (entry : Bool)
  | text (t : Except BufferError Text)
  | value (x : Option Decimal)
  | effect (r : Except BufferError MemoryEffect)

def replyPercent (r : Except BufferError Buffer) : Answer × Buffer :=
  match r with
  | .ok b' => (.text (.ok b'.text), b')
  | .error e => (.text (.error e), b)

def replyMemory (r : Except BufferError (MemoryEffect × Buffer)) : Answer × Buffer :=
  match r with
  | .ok (effect, b') => (.effect (.ok effect), b')
  | .error e => (.effect (.error e), b)

def reply : Call Calculator → Answer × Buffer
  | .append t => (.done, b.append t)
  | .setText t => (.done, b.setText t)
  | .setResult x => (.done, b.setResult x)
  | .deleteLast => (.done, b.deleteLast)
  | .clear => (.done, b.clear)
  | .clearEntry => (.done, b.clearEntry)
  | .toggleSign => (.found b.toggleSign.1, b.toggleSign.2)
  | .percent engine => b.replyPercent (b.percentWith engine)
  | .currentValue engine => (.value (b.currentValueWith? engine), b)
  | .memory engine action => b.replyMemory (b.actOnMemoryWith engine action)

def replies (b : Buffer) : List (Call Calculator) → List Answer × Buffer
  | [] => ([], b)
  | call :: rest =>
    let next := b.reply call
    let others := next.2.replies rest
    (next.1 :: others.1, others.2)

/-! ### The operations by position -/

def clearEntryAt : Positioned Buffer := do
  match ← boundsSteps b.text with
  | some (start, _) => return b.setText (← b.text.truncate start)
  | none => return b.clear

def overwriteAt (start stop : ℕ) (t : Text) : Positioned Buffer := do
  return b.setText (← b.text.replaceRange start stop t)

def toggleSignAt : Positioned (Bool × Buffer) := do
  match ← boundsSteps b.text with
  | none => return (false, { b with lastResult := none })
  | some (start, stop) =>
    let segment ← b.text.slice start stop
    return (true, ← b.overwriteAt start stop (oppositeEntry segment))

def baseAt (start : ℕ) : Positioned (Option Decimal) := do
  match ← operatorSteps b.text start with
  | none => return none
  | some position =>
    match ← operandSteps b.text position with
    | none => return none
    | some operand => return engine.value? operand.trim

def percentAt : Positioned (Except BufferError Buffer) := do
  match ← boundsSteps b.text with
  | none => return .error .noEntry
  | some (start, stop) =>
    let segment ← b.text.slice start stop
    match Decimal.read? segment with
    | none => return .error .invalidEntry
    | some x =>
      let base ← b.baseAt engine start
      let scaled := (base.bind (engine.mul · x)).getD x
      match engine.div scaled (Decimal.ofInt 100) with
      | none => return .error .invalidEntry
      | some value => return .ok (← b.overwriteAt start stop value.write)

def entryValueAt : Positioned (Option Decimal) := do
  match ← boundsSteps b.text with
  | none => return none
  | some (start, stop) =>
    let segment ← b.text.slice start stop
    return Decimal.read? segment

def currentValueAt : Positioned (Option Decimal) :=
  match b.lastResult with
  | some x => return some x
  | none => do
    match ← b.entryValueAt with
    | some x => return some x
    | none => return engine.value? b.text.trim

def recallAt (m : Decimal) : Positioned (MemoryEffect × Buffer) :=
  if b.lastResult.isSome then return ({ blanksResult := true }, b.setText m.write)
  else do
    match ← boundsSteps b.text with
    | some (start, stop) => return ({}, ← b.overwriteAt start stop m.write)
    | none => return ({}, b.append m.write)

def actOnMemoryAt : MemoryAction → Positioned (Except BufferError (MemoryEffect × Buffer))
  | .clear => return .ok ({ cleared := true }, { b with memory := none })
  | .store => do
    let value ← b.currentValueAt engine
    return (orError .nothingToStore value).map b.remember
  | .add => do
    let value ← b.currentValueAt engine
    return b.accumulate .nothingToAdd id engine.add value
  | .subtract => do
    let value ← b.currentValueAt engine
    return b.accumulate .nothingToSubtract (-·) engine.sub value
  | .recall =>
    match b.memory with
    | none => return .error .emptyMemory
    | some m => do return .ok (← b.recallAt m)

def replyAt : Call Calculator → Positioned (Answer × Buffer)
  | .append t => return (.done, b.append t)
  | .setText t => return (.done, b.setText t)
  | .setResult x => return (.done, b.setResult x)
  | .deleteLast => return (.done, b.deleteLast)
  | .clear => return (.done, b.clear)
  | .clearEntry => do return (.done, ← b.clearEntryAt)
  | .toggleSign => do
    let (found, b') ← b.toggleSignAt
    return (.found found, b')
  | .percent engine => do return b.replyPercent (← b.percentAt engine)
  | .currentValue engine => do return (.value (← b.currentValueAt engine), b)
  | .memory engine action => do return b.replyMemory (← b.actOnMemoryAt engine action)

def repliesAt (b : Buffer) : List (Call Calculator) → Positioned (List Answer × Buffer)
  | [] => return ([], b)
  | call :: rest => do
    let (answer, b') ← b.replyAt call
    let (others, b'') ← b'.repliesAt rest
    return (answer :: others, b'')

/-! ### They come to an end -/

theorem clearEntryAt_eq : b.clearEntryAt = .ok b.clearEntry := by
  rw [clearEntryAt, boundsSteps_eq, clearEntry]
  cases he : last? b.text with
  | none => rfl
  | some e =>
    simp only [Option.map_some, Positioned.ok_bind, truncate_of_last? he]
    rfl

theorem overwriteAt_eq {e : Entry} (he : last? b.text = some e) (t : Text) :
    b.overwriteAt e.start e.stop t = .ok (b.setText (e.replace t)) := by
  rw [overwriteAt, replaceRange_of_last? he]
  rfl

theorem toggleSignAt_eq : b.toggleSignAt = .ok b.toggleSign := by
  rw [toggleSignAt, boundsSteps_eq, toggleSign]
  cases he : last? b.text with
  | none => rfl
  | some e =>
    simp only [Option.map_some, Positioned.ok_bind, slice_of_last? he, b.overwriteAt_eq he]
    rfl

theorem baseAt_eq {e : Entry} (he : last? b.text = some e) :
    b.baseAt engine e.start = .ok (baseWith? engine e.before) := by
  have ht := eq_append_of_last? he
  have hoperator : operatorBefore? b.text e.start = (lastOperator? e.before).map size := by
    rw [ht, List.append_assoc]
    exact operatorBefore?_append e.before _
  rw [baseAt, operatorSteps_eq, hoperator, baseWith?]
  cases hleft : lastOperator? e.before with
  | none => rfl
  | some left =>
    obtain ⟨c, right, hsplit⟩ := exists_of_lastOperator? hleft
    have hoperand := operandSteps_append left (c :: right ++ (e.entry ++ e.after))
    rw [← List.append_assoc, ← hsplit, ← List.append_assoc, ← ht] at hoperand
    simp only [Option.map_some, Positioned.ok_bind, hoperand, Option.bind_eq_bind, Option.bind_some]
    cases lastOperand? left <;> rfl

theorem percentAt_eq : b.percentAt engine = .ok (b.percentWith engine) := by
  rw [percentAt, boundsSteps_eq, percentWith]
  cases he : last? b.text with
  | none => rfl
  | some e =>
    simp only [Option.map_some, Positioned.ok_bind, slice_of_last? he]
    cases Decimal.read? e.entry with
    | none => rfl
    | some x =>
      simp only [b.baseAt_eq engine he, Positioned.ok_bind]
      cases engine.div (((baseWith? engine e.before).bind (engine.mul · x)).getD x)
        (Decimal.ofInt 100) with
      | none => rfl
      | some value =>
        simp only [b.overwriteAt_eq he]
        rfl

theorem entryValueAt_eq : b.entryValueAt = .ok (entryValue? b.text) := by
  rw [entryValueAt, boundsSteps_eq, entryValue?]
  cases he : last? b.text with
  | none => rfl
  | some e =>
    simp only [Option.map_some, Positioned.ok_bind, slice_of_last? he]
    rfl

theorem currentValueAt_eq : b.currentValueAt engine = .ok (b.currentValueWith? engine) := by
  rw [currentValueAt, currentValueWith?, entryValueAt_eq]
  cases b.lastResult with
  | some x => rfl
  | none => cases entryValue? b.text <;> rfl

theorem recallAt_eq (m : Decimal) : b.recallAt m = .ok (b.recallMemory m) := by
  rw [recallAt, boundsSteps_eq, recallMemory]
  by_cases hresult : b.lastResult.isSome = true
  · rw [if_pos hresult, if_pos hresult]
    rfl
  · rw [if_neg hresult, if_neg hresult]
    cases he : last? b.text with
    | none => rfl
    | some e =>
      simp only [Option.map_some, Positioned.ok_bind, b.overwriteAt_eq he]
      rfl

theorem actOnMemoryAt_eq (action : MemoryAction) :
    b.actOnMemoryAt engine action = .ok (b.actOnMemoryWith engine action) := by
  cases action with
  | clear => rfl
  | store | add | subtract =>
    rw [actOnMemoryAt, currentValueAt_eq]
    rfl
  | «recall» =>
    rw [actOnMemoryAt, actOnMemoryWith]
    cases b.memory with
    | none => rfl
    | some m =>
      simp only [recallAt_eq]
      rfl

theorem replyAt_eq (call : Call Calculator) : b.replyAt call = .ok (b.reply call) := by
  cases call with
  | append | setText | setResult | deleteLast | clear => rfl
  | clearEntry =>
    rw [replyAt, clearEntryAt_eq]
    rfl
  | toggleSign =>
    rw [replyAt, toggleSignAt_eq]
    rfl
  | percent engine =>
    rw [replyAt, percentAt_eq]
    rfl
  | currentValue engine =>
    rw [replyAt, currentValueAt_eq]
    rfl
  | memory engine action =>
    rw [replyAt, actOnMemoryAt_eq]
    rfl

theorem repliesAt_eq (calls : List (Call Calculator)) : b.repliesAt calls = .ok (b.replies calls) := by
  induction calls generalizing b with
  | nil => rfl
  | cons call rest ih =>
    rw [repliesAt, replyAt_eq, Positioned.ok_bind]
    simp only [ih]
    rfl

end Buffer

/-! ### Nothing goes wrong -/

theorem Steps.Realizes.ne_undefined {α : Type} {m : Steps α} {r : Except CalcError α}
    (h : Steps.Realizes m r) (misuse : Misuse) : m ≠ .error (.undefined misuse) := by
  intro hm
  have hend := h (by rw [hm]; exact Steps.undefined_ne_longPower misuse)
  rw [hm] at hend
  cases r <;> cases hend

end DeskCalculator
