import DeskCalculator.Reading
import DeskCalculator.Text

/-!
# Reading JSON

A reader for the whole of JSON. A number keeps its written form. A string holds
the text it stands for, if it stands for one: an escape may leave half of a
surrogate pair without the other.
-/

set_option autoImplicit false

namespace DeskCalculator

inductive JsonValue where
  | null
  | bool (b : Bool)
  | number (lexeme : Text)
  | string (text : Option Text)
  | array (items : List JsonValue)
  | object (members : List (Option Text × JsonValue))
  deriving Repr

namespace JsonValue

def isBlank (c : Char) : Bool := c = ' ' || c = '\n' || c = '\t' || c = '\r'

/-! ### Strings -/

/-- A part of a quoted string: a character, or a code unit given by its number. -/
inductive StringPart where
  | character (c : Char)
  | codeUnit (n : Nat)
  deriving DecidableEq, Repr

def hexValue? (c : Char) : Option Nat :=
  if c.isDigit then some (c.toNat - '0'.toNat)
  else if 'a' ≤ c ∧ c ≤ 'f' then some (c.toNat - 'a'.toNat + 10)
  else if 'A' ≤ c ∧ c ≤ 'F' then some (c.toNat - 'A'.toNat + 10)
  else none

def codeUnit? (a b c d : Char) : Option Nat := do
  return (((← hexValue? a) * 16 + (← hexValue? b)) * 16 + (← hexValue? c)) * 16 + (← hexValue? d)

def escaped? (c : Char) : Option Char :=
  match c with
  | '"' => some '"'
  | '\\' => some '\\'
  | '/' => some '/'
  | 'b' => some (Char.ofNat 8)
  | 'f' => some (Char.ofNat 12)
  | 'n' => some '\n'
  | 'r' => some '\r'
  | 't' => some '\t'
  | _ => none

def stringParts : (t : Text) → Option (Reading (List StringPart) t)
  | [] => none
  | '"' :: rest => some ⟨[], rest, Nat.lt_succ_self _⟩
  | '\\' :: 'u' :: a :: b :: c :: d :: rest => do
    let n ← codeUnit? a b c d
    let more ← stringParts rest
    return (((((more.map (.codeUnit n :: ·)).after d).after c).after b).after a).after 'u'
      |>.after '\\'
  | '\\' :: c :: rest => do
    let e ← escaped? c
    let more ← stringParts rest
    return ((more.map (.character e :: ·)).after c).after '\\'
  | c :: rest =>
    if c = '\\' || c.toNat < 32 then none
    else (stringParts rest).map fun more => (more.map (.character c :: ·)).after c

def isHighSurrogate (n : Nat) : Bool := 0xD800 ≤ n && n < 0xDC00

def isLowSurrogate (n : Nat) : Bool := 0xDC00 ≤ n && n < 0xE000

def ofSurrogates (high low : Nat) : Char :=
  Char.ofNat (0x10000 + (high - 0xD800) * 0x400 + (low - 0xDC00))

/-- The text that the parts of a string stand for, unless a surrogate stands alone. -/
def textOfParts : List StringPart → Option Text
  | [] => some []
  | .character c :: rest => (textOfParts rest).map (c :: ·)
  | .codeUnit high :: .codeUnit low :: rest =>
    if isHighSurrogate high then
      if isLowSurrogate low then (textOfParts rest).map (ofSurrogates high low :: ·) else none
    else if isLowSurrogate high then none
    else (textOfParts (.codeUnit low :: rest)).map (Char.ofNat high :: ·)
  | .codeUnit n :: rest =>
    if isHighSurrogate n || isLowSurrogate n then none
    else (textOfParts rest).map (Char.ofNat n :: ·)

/-! ### Numbers -/

def fraction? : Text → Option Text
  | '.' :: rest =>
    let digits := rest.takeWhile Char.isDigit
    if digits.isEmpty then none else some ('.' :: digits)
  | _ => some []

def exponent? : Text → Option Text
  | [] => some []
  | c :: rest =>
    if c = 'e' || c = 'E' then
      let sign := (rest.take 1).filter fun s => s = '+' || s = '-'
      let digits := (rest.drop sign.length).takeWhile Char.isDigit
      if digits.isEmpty then none else some (c :: sign ++ digits)
    else some []

def afterDigit? (digit : Char) (rest : Text) : Option Text := do
  let whole := if digit = '0' then [] else rest.takeWhile Char.isDigit
  let fraction ← fraction? (rest.drop whole.length)
  let exponent ← exponent? ((rest.drop whole.length).drop fraction.length)
  return whole ++ fraction ++ exponent

def afterFirst? (c : Char) (rest : Text) : Option Text :=
  if c = '-' then
    match rest with
    | d :: more => if d.isDigit then (afterDigit? d more).map (d :: ·) else none
    | [] => none
  else if c.isDigit then afterDigit? c rest
  else none

def number? (c : Char) (rest : Text) : Option (Reading JsonValue (c :: rest)) :=
  (afterFirst? c rest).map fun more =>
    ⟨.number (c :: more), rest.drop more.length,
      Nat.lt_succ_of_le (List.length_drop ▸ Nat.sub_le _ _)⟩

/-! ### Values -/

def symbol : (t : Text) → Option (Reading Char t)
  | [] => none
  | c :: rest =>
    if isBlank c then (symbol rest).map (·.after c)
    else some ⟨c, rest, Nat.lt_succ_self _⟩

def word? : (t : Text) → Option (Reading JsonValue t)
  | 'n' :: 'u' :: 'l' :: 'l' :: rest =>
    some ⟨.null, rest, by simp only [List.length_cons]; omega⟩
  | 't' :: 'r' :: 'u' :: 'e' :: rest =>
    some ⟨.bool true, rest, by simp only [List.length_cons]; omega⟩
  | 'f' :: 'a' :: 'l' :: 's' :: 'e' :: rest =>
    some ⟨.bool false, rest, by simp only [List.length_cons]; omega⟩
  | _ => none

def key? (t : Text) : Option (Reading (Option Text) t) := do
  let opening ← symbol t
  if opening.value ≠ '"' then none
  else
    let parts ← stringParts opening.rest
    let colon ← symbol parts.rest
    if colon.value ≠ ':' then none
    else return opening.behind (parts.behind (colon.map fun _ => textOfParts parts.value))

mutual

def value? (t : Text) : Option (Reading JsonValue t) :=
  match t with
  | [] => none
  | c :: rest =>
    if isBlank c then (value? rest).map (·.after c)
    else if c = '"' then
      (stringParts rest).map fun parts => (parts.map fun p => .string (textOfParts p)).after c
    else if c = '[' then do
      let first ← symbol rest
      if first.value = ']' then return (first.map fun _ => .array []).after c
      else return ((← items? rest).map .array).after c
    else if c = '\x7b' then do
      let first ← symbol rest
      if first.value = '\x7d' then return (first.map fun _ => .object []).after c
      else return ((← members? rest).map .object).after c
    else if c = '-' || c.isDigit then number? c rest
    else word? (c :: rest)
termination_by (t.length, 0)

def items? (t : Text) : Option (Reading (List JsonValue) t) := do
  let item ← value? t
  let mark ← symbol item.rest
  if mark.value = ',' then
    have := Nat.lt_trans mark.shorter item.shorter
    let more ← items? mark.rest
    return item.behind (mark.behind (more.map (item.value :: ·)))
  else if mark.value = ']' then return item.behind (mark.map fun _ => [item.value])
  else none
termination_by (t.length, 1)

def members? (t : Text) : Option (Reading (List (Option Text × JsonValue)) t) := do
  let key ← key? t
  have := key.shorter
  let item ← value? key.rest
  let mark ← symbol item.rest
  if mark.value = ',' then
    have := Nat.lt_trans mark.shorter (Nat.lt_trans item.shorter key.shorter)
    let more ← members? mark.rest
    return key.behind (item.behind (mark.behind (more.map ((key.value, item.value) :: ·))))
  else if mark.value = '\x7d' then
    return key.behind (item.behind (mark.map fun _ => [(key.value, item.value)]))
  else none
termination_by (t.length, 1)

end

def read? (t : Text) : Option JsonValue := do
  let r ← value? t
  if r.rest.all isBlank then return r.value else none

end JsonValue

end DeskCalculator
