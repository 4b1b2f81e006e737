import DeskCalculator.Desk.Session

/-!
# A session in a running program

The session together with what the program has kept of the constants. Each
action finds what the actions before it have left there, and an action that
breaks the program off has no session after it.
-/

set_option autoImplicit false

namespace DeskCalculator

open DeskCalculator.FixedPoint

namespace Session

def evaluationNeeds (s : Session) : Buffer.Needs :=
  { expression := Buffer.expression? s.buffer.text.trim }

def pressNeeds (s : Session) : Key → Buffer.Needs
  | .percent => s.buffer.percentNeeds
  | .memory action => s.buffer.memoryNeeds action
  | .equals => s.evaluationNeeds
  | _ => {}

def needs (s : Session) : Action → Buffer.Needs
  | .press key => s.pressNeeds key
  | .evaluate => s.evaluationNeeds
  | _ => {}

def records (s : Session) (action : Action)
    (value : Text → Except CalcError Decimal := s.preferences.evaluateText) : Bool :=
  (action = .evaluate || action = .press .equals) && (s.calculate value).isOk

/-- An action in a running program, which is broken off where an item gets no stamp. -/
def act? (s : Session) (now : UInt64) (action : Action)
    (value : Text → Except CalcError Decimal := s.preferences.evaluateText) :
    Option (Option Bool × Session) :=
  if s.records action value ∧ ¬s.history.HasNext then none else some (s.act now action value)

end Session

structure Machine where
  session : Session
  kept : Constants
  deriving DecidableEq

namespace Machine

def start (p : Preferences) : Machine := ⟨Session.start p, {}⟩

def act (s : Machine) (now : UInt64) (action : Session.Action) :
    Option (Option Bool × Machine) := do
  let (after?, kept) ←
    (s.session.needs action).meet s.session.preferences (s.session.act? now action ·) s.kept
  let (ret, after) ← after?
  return (ret, ⟨after, kept⟩)

end Machine

end DeskCalculator
