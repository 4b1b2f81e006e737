import DeskCalculator.Json.Writer

/-!
# History

The evaluations of a session, the newest first, up to a number that is at least
one. Each has a time stamp; the stamps grow even when the clock does not, since
a reading that is not later than the last stamp is replaced by the next number.
Readings and stamps are words of 64 bits. An addition after the last word breaks
a program off, or goes on from zero if the program was built without the checks.
-/

set_option autoImplicit false

namespace DeskCalculator

structure HistoryItem where
  expression : Text
  result : Text
  stamp : UInt64
  deriving DecidableEq, Repr

structure History where
  items : List HistoryItem
  max : Nat
  lastStamp : UInt64
  deriving DecidableEq, Repr

namespace History

def empty (max : Nat) : History where
  items := []
  max := Nat.max max 1
  lastStamp := 0

/-- The stamp that the next item gets when the clock reads `now`. -/
def nextStamp (h : History) (now : UInt64) : UInt64 := Max.max now (h.lastStamp + 1)

def HasNext (h : History) : Prop := h.lastStamp.toNat + 1 < UInt64.size

instance (h : History) : Decidable h.HasNext := inferInstanceAs (Decidable (_ < _))

def add (h : History) (now : UInt64) (expression result : Text) : History where
  items := (⟨expression, result, h.nextStamp now⟩ :: h.items).take h.max
  max := h.max
  lastStamp := h.nextStamp now

/-- An addition after the last word breaks a running program off. -/
def add? (h : History) (now : UInt64) (expression result : Text) : Option History :=
  if h.HasNext then some (h.add now expression result) else none

def find? (h : History) (stamp : UInt64) : Option HistoryItem := h.items.find? (·.stamp = stamp)

def remove (h : History) (stamp : UInt64) : Bool × History :=
  let kept := h.items.filter (·.stamp ≠ stamp)
  (kept.length ≠ h.items.length, { h with items := kept })

def clear (h : History) : History := { h with items := [] }

def setMax (h : History) (max : Nat) : History where
  items := h.items.take (Nat.max max 1)
  max := Nat.max max 1
  lastStamp := h.lastStamp

def writeItem (item : HistoryItem) : Text :=
  Json.writeObject 1 [
    ("expression".toList, Json.quote item.expression),
    ("resultat".toList, Json.quote item.result),
    ("horodatage".toList, Json.writeNatural item.stamp.toNat)]

def writeJson (h : History) : Text := Json.writeList 0 (h.items.map writeItem)

end History

end DeskCalculator
