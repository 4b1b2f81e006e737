import DeskCalculator.Json.Value
import DeskCalculator.Json.Writer
import DeskCalculator.Preferences

/-!
# Preferences as JSON

Preferences are an object with a member for each field, all of which may be
absent, or a list of the fields in order. Members of other names are ignored; a
field may not be given twice.
-/

set_option autoImplicit false

namespace DeskCalculator

def AngleUnit.name : AngleUnit → Text
  | degree => "deg".toList
  | radian => "rad".toList
  | gradian => "grad".toList

def AngleUnit.ofName? (text : Text) : Option AngleUnit :=
  [degree, radian, gradian].find? (·.name = text)

def Mode.name : Mode → Text
  | standard => "standard".toList
  | scientific => "scientific".toList

def Mode.ofName? (text : Text) : Option Mode := [standard, scientific].find? (·.name = text)

namespace JsonValue

/-- The name of a choice: a string, or an object with that name for its only key and no content. -/
def choice? : JsonValue → Option Text
  | string text => text
  | object [(key, null)] => key
  | _ => none

def naturalBelow? (limit : Nat) : JsonValue → Option Nat
  | number lexeme =>
    if lexeme.all Char.isDigit then
      let n := Nat.ofDigitChars 10 lexeme 0
      if n < limit then some n else none
    else none
  | _ => none

end JsonValue

namespace Preferences

def angleUnitKey : Text := "angleUnit".toList
def precisionKey : Text := "precision".toList
def modeKey : Text := "mode".toList
def maxHistoryKey : Text := "maxHistory".toList

def writeJson (p : Preferences) : Text :=
  Json.writeObject 0 [
    (angleUnitKey, Json.quote p.angleUnit.name),
    (precisionKey, Json.writeNatural p.precision.toNat),
    (modeKey, Json.quote p.mode.name),
    (maxHistoryKey, Json.writeNatural p.maxHistory.toNat)]

structure Fields where
  angleUnit : Option JsonValue := none
  precision : Option JsonValue := none
  mode : Option JsonValue := none
  maxHistory : Option JsonValue := none

def valuesOf (members : List (Option Text × JsonValue)) (key : Text) : List JsonValue :=
  (members.filter (·.1 = some key)).map (·.2)

def single? (members : List (Option Text × JsonValue)) (key : Text) : Option (Option JsonValue) :=
  match valuesOf members key with
  | [] => some none
  | [v] => some (some v)
  | _ => none

/-- The fields of an object, or of a list that has at least `least` items. -/
def Fields.ofJson? (least : Nat) : JsonValue → Option Fields
  | .object members =>
    if members.any (·.1.isNone) then none
    else do
      return {
        angleUnit := ← single? members angleUnitKey
        precision := ← single? members precisionKey
        mode := ← single? members modeKey
        maxHistory := ← single? members maxHistoryKey }
  | .array items =>
    if items.length < least || 4 < items.length then none
    else some { angleUnit := items[0]?, precision := items[1]?, mode := items[2]?,
                maxHistory := items[3]? }
  | _ => none

def given? {α : Type} (read : JsonValue → Option α) : Option JsonValue → Option (Option α)
  | none => some none
  | some v => (read v).map some

/-- Reads a field that is given; a null leaves it out. -/
def nullable? {α : Type} (read : JsonValue → Option α) : Option JsonValue → Option (Option α)
  | some .null => some none
  | v => given? read v

def angleUnitOf? (v : JsonValue) : Option AngleUnit := v.choice?.bind AngleUnit.ofName?

def modeOf? (v : JsonValue) : Option Mode := v.choice?.bind Mode.ofName?

def precisionOf? (v : JsonValue) : Option UInt32 := (v.naturalBelow? UInt32.size).map UInt32.ofNat

def maxHistoryOf? (v : JsonValue) : Option UInt64 := (v.naturalBelow? UInt64.size).map UInt64.ofNat

def readJson? (t : Text) : Option Preferences := do
  let fields ← Fields.ofJson? 0 (← JsonValue.read? t)
  let u : Update := {
    angleUnit := ← given? angleUnitOf? fields.angleUnit
    precision := ← given? precisionOf? fields.precision
    mode := ← given? modeOf? fields.mode
    maxHistory := ← given? maxHistoryOf? fields.maxHistory }
  return (override {} u).imported

/-- A change of preferences from JSON. A list has to name every field. -/
def Update.readJson? (t : Text) : Option Update := do
  let fields ← Fields.ofJson? 4 (← JsonValue.read? t)
  return {
    angleUnit := ← nullable? angleUnitOf? fields.angleUnit
    precision := ← nullable? precisionOf? fields.precision
    mode := ← nullable? modeOf? fields.mode
    maxHistory := ← nullable? maxHistoryOf? fields.maxHistory }

end Preferences

end DeskCalculator
