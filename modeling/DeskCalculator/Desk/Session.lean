import DeskCalculator.Desk.History
import DeskCalculator.Desk.Key

/-!
# The session

The preferences in force, the buffer, the history and what the display shows. A
failure changes nothing but the notice on the display. An evaluation is stamped
with a reading of the clock, which the caller supplies.
-/

set_option autoImplicit false

namespace DeskCalculator

inductive Notice where
  | calculation (e : CalcError)
  | buffer (e : BufferError)
  deriving DecidableEq, Repr

def Notice.message : Notice → Text
  | calculation e => e.message
  | buffer e => e.message

structure Session where
  preferences : Preferences
  buffer : Buffer
  history : History
  result : Text
  notice : Option Notice
  mode : Mode
  second : Bool
  deriving DecidableEq

namespace Session

def start (p : Preferences) : Session where
  preferences := p
  buffer := {}
  history := History.empty p.maxHistory.toNat
  result := []
  notice := none
  mode := p.mode
  second := false

/-- Sets the mode. The second functions end with the scientific mode. -/
def setMode (s : Session) (mode : Mode) : Session :=
  { s with mode := mode, second := s.second && mode = .scientific }

def toggleSecond (s : Session) : Session := { s with second := !s.second }

def update (s : Session) (u : Preferences.Update) : Session :=
  let p := s.preferences.apply u
  let s := { s with preferences := p, history := s.history.setMax p.maxHistory.toNat }
  if u.mode.isSome then s.setMode p.mode else s

/-- The value of the text under edit, which is that under the preferences unless `value` says else. -/
def calculate (s : Session)
    (value : Text → Except CalcError Decimal := s.preferences.evaluateText) :
    Except CalcError Decimal := do
  Expr.validate s.buffer.text.trim
  value s.buffer.text.trim

/-- Evaluates the text under edit at the time `now`; tells whether there is a result. A
blank text has none and is no failure. -/
def evaluate (s : Session) (now : UInt64)
    (value : Text → Except CalcError Decimal := s.preferences.evaluateText) : Bool × Session :=
  let expression := s.buffer.text.trim
  if expression.isEmpty then (false, { s with notice := none })
  else
    match s.calculate value with
    | .error e => (false, { s with notice := some (.calculation e) })
    | .ok x =>
      let result := x.short Decimal.displayDigits
      (true, { s with
        result := result
        notice := none
        buffer := s.buffer.setResult x
        history := s.history.add now expression result })

def restore (s : Session) (stamp : UInt64) : Bool × Session :=
  match s.history.find? stamp with
  | some item => (true, { s with buffer := s.buffer.setText item.expression, notice := none })
  | none => (false, s)

def clearAll (s : Session) : Session :=
  { s with buffer := s.buffer.clear, history := s.history.clear, result := [], notice := none }

def actOnMemory (s : Session) (action : MemoryAction)
    (value : Text → Except CalcError Decimal := s.preferences.evaluateText) : Session :=
  match s.buffer.actOnMemory s.preferences action value with
  | .error e => { s with notice := some (.buffer e) }
  | .ok (effect, b) =>
    { s with buffer := b, result := if effect.blanksResult then [] else s.result }

def press (s : Session) (now : UInt64) (key : Key)
    (value : Text → Except CalcError Decimal := s.preferences.evaluateText) : Session :=
  match key with
  | .insert text => { s with buffer := s.buffer.append text, notice := none }
  | .delete => { s with buffer := s.buffer.deleteLast }
  | .clearEntry => { s with buffer := s.buffer.clearEntry }
  | .clear => { s with buffer := s.buffer.clear, result := [], notice := none }
  | .clearAll => s.clearAll
  | .sign => { s with buffer := s.buffer.toggleSign.2 }
  | .percent =>
    match s.buffer.percent s.preferences value with
    | .error e => { s with notice := some (.buffer e) }
    | .ok b => { s with buffer := b }
  | .equals => (s.evaluate now value).2
  | .memory action => s.actOnMemory action value
  | .mode mode => s.update { mode := some mode }
  | .second => s.toggleSecond

inductive Action where
  | press (key : Key)
  | evaluate
  | update (change : Preferences.Update)
  | setMode (mode : Mode)
  | toggleSecond
  | restore (stamp : UInt64)
  | clearAll
  deriving DecidableEq, Repr

def act (s : Session) (now : UInt64) (action : Action)
    (value : Text → Except CalcError Decimal := s.preferences.evaluateText) :
    Option Bool × Session :=
  match action with
  | .press key => (none, s.press now key value)
  | .evaluate => (some (s.evaluate now value).1, (s.evaluate now value).2)
  | .update change => (none, s.update change)
  | .setMode mode => (none, s.setMode mode)
  | .toggleSecond => (some s.toggleSecond.second, s.toggleSecond)
  | .restore stamp => (some (s.restore stamp).1, (s.restore stamp).2)
  | .clearAll => (none, s.clearAll)

/-! ### The display -/

def memoryIndicator (s : Session) : Text :=
  match s.buffer.memory with
  | some m => "M: ".toList ++ m.short Decimal.displayDigits
  | none => "M: vide".toList

def screen (s : Session) : Text :=
  "Expression : ".toList ++ s.buffer.text ++ ['\n'] ++
    "Résultat   : ".toList ++ s.result ++ ['\n'] ++
    (match s.notice with
      | some n => "Erreur     : ".toList ++ n.message ++ ['\n']
      | none => []) ++
    s.memoryIndicator ++
    (if s.mode = .scientific then
      if s.second then " | SCI 2nd".toList else " | SCI".toList
    else [])

end Session

end DeskCalculator
