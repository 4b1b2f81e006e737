import DeskCalculator.Desk.Machine
import DeskCalculator.Json.Preferences

/-!
# Dialogues

A session that is held line by line. Each line is answered before the next one
is read: it ends the dialogue, asks for the history or the preferences, or is
typed into the session, which then shows its display.
-/

set_option autoImplicit false

namespace DeskCalculator

/-- A line of input as bytes may give it: without a text, if the bytes stand for none. -/
structure Line where
  text : Option Text
  time : UInt64
  deriving DecidableEq, Repr

namespace Line

def decode (bytes : List UInt8) : Option Text :=
  (String.fromUTF8? ⟨bytes.toArray⟩).map String.toList

/-- Cuts bytes after every line break. A last line needs no break after it. -/
def cut : List UInt8 → List (List UInt8)
  | [] => []
  | b :: rest =>
    if b = 10 then [] :: cut rest
    else
      match cut rest with
      | [] => [[b]]
      | line :: more => (b :: line) :: more

end Line

inductive Turn where
  | ended
  | brokenOff
  | answered (output : Text) (machine : Machine)
  deriving DecidableEq

namespace Machine

def type (s : Machine) (now : UInt64) (line : Text) : Option Machine :=
  match Key.read? line with
  | some key => (s.act now (.press key)).map (·.2)
  | none => some s

def turn (s : Machine) (now : UInt64) (line : Text) : Turn :=
  let word := String.ofList line.trim
  if word = "q" ∨ word = "quit" then .ended
  else if word = "hist" then .answered (s.session.history.writeJson ++ ['\n']) s
  else if word = "prefs" then .answered (s.session.preferences.writeJson ++ ['\n']) s
  else
    match s.type now line with
    | none => .brokenOff
    | some after => .answered (after.session.screen ++ ['\n', '\n']) after

end Machine

end DeskCalculator
