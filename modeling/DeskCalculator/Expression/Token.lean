import DeskCalculator.Error

/-!
# Tokens

An expression is cut into numbers, names, constants and symbols. A number holds
at most one point; a point opens a number only before a digit. Names are read
without regard to case. Blanks separate tokens and are otherwise ignored.
-/

set_option autoImplicit false

namespace DeskCalculator

inductive Constant where
  | pi
  | e
  deriving DecidableEq, Repr

def Constant.name : Constant → Text
  | pi => ['p', 'i']
  | e => ['e']

def Constant.ofName? (text : Text) : Option Constant :=
  if text = Constant.pi.name then some .pi
  else if text = Constant.e.name then some .e
  else none

inductive Token where
  | number (text : Text)
  | constant (c : Constant)
  | name (text : Text)
  | plus
  | minus
  | times
  | slash
  | percent
  | caret
  | bang
  | opening
  | closing
  | comma
  deriving DecidableEq, Repr

namespace Token

inductive Kind where
  | number
  | operator
  | opening
  | closing
  | function
  | constant
  | comma
  deriving DecidableEq, Repr

def kind : Token → Kind
  | number _ => .number
  | constant _ => .constant
  | name _ => .function
  | opening => .opening
  | closing => .closing
  | comma => .comma
  | plus | minus | times | slash | percent | caret | bang => .operator

def text : Token → Text
  | number t => t
  | constant c => c.name
  | name t => t
  | plus => ['+']
  | minus => ['-']
  | times => ['*']
  | slash => ['/']
  | percent => ['%']
  | caret => ['^']
  | bang => ['!']
  | opening => ['(']
  | closing => [')']
  | comma => [',']

def ofSymbol? (c : Char) : Option Token :=
  match c with
  | '+' => some plus
  | '-' => some minus
  | '*' => some times
  | '/' => some slash
  | '%' => some percent
  | '^' => some caret
  | '!' => some bang
  | '(' => some opening
  | ')' => some closing
  | ',' => some comma
  | _ => none

/-- The token of a word, whose letters are lower case. -/
def ofWord (word : Text) : Token :=
  match Constant.ofName? word with
  | some c => constant c
  | none => name word

def isWordCharacter (c : Char) : Bool := c.isAlpha || c = '_'

def opensNumber (c : Char) (rest : Text) : Bool :=
  c.isDigit || (c = '.' && rest.head?.any Char.isDigit)

/-- The longest number at the front of a text: digits with at most one point. -/
def numberLexeme (t : Text) : Text :=
  t.takeWhile Char.isDigit ++
    match t.dropWhile Char.isDigit with
    | '.' :: rest => '.' :: rest.takeWhile Char.isDigit
    | _ => []

def afterNumber (t : Text) : Text :=
  match t.dropWhile Char.isDigit with
  | '.' :: rest => rest.dropWhile Char.isDigit
  | rest => rest

theorem length_dropWhile_le {α : Type} (p : α → Bool) (l : List α) :
    (l.dropWhile p).length ≤ l.length :=
  (List.dropWhile_sublist p).length_le

theorem length_afterNumber_le (t : Text) : (afterNumber t).length ≤ t.length := by
  have h := length_dropWhile_le Char.isDigit t
  unfold afterNumber
  split
  · next rest heq =>
    rw [heq, List.length_cons] at h
    exact Nat.le_trans (length_dropWhile_le _ rest) (by omega)
  · exact h

theorem length_afterNumber_lt {c : Char} {rest : Text} (h : opensNumber c rest = true) :
    (afterNumber (c :: rest)).length < (c :: rest).length := by
  by_cases hc : c.isDigit = true
  · have hd : afterNumber (c :: rest) = afterNumber rest := by simp [afterNumber, hc]
    rw [hd, List.length_cons]
    exact Nat.lt_succ_of_le (length_afterNumber_le rest)
  · have hp : c = '.' := by simp [opensNumber, hc] at h; exact h.1
    subst hp
    have hd : afterNumber ('.' :: rest) = rest.dropWhile Char.isDigit := by
      simp [afterNumber, Char.isDigit]
    rw [hd, List.length_cons]
    exact Nat.lt_succ_of_le (length_dropWhile_le _ rest)

def readAll (t : Text) : Except CalcError (List Token) :=
  match t with
  | [] => .ok []
  | c :: rest =>
    if Text.isBlank c then readAll rest
    else if _ : opensNumber c rest = true then
      (readAll (afterNumber (c :: rest))).map (number (numberLexeme (c :: rest)) :: ·)
    else if isWordCharacter c then
      let word := Text.lower (c :: rest.takeWhile isWordCharacter)
      (readAll (rest.dropWhile isWordCharacter)).map (ofWord word :: ·)
    else
      match ofSymbol? c with
      | some token => (readAll rest).map (token :: ·)
      | none => .error (.unknownCharacter c)
termination_by t.length
decreasing_by
  · exact Nat.lt_succ_self _
  · exact length_afterNumber_lt (by assumption)
  · exact Nat.lt_succ_of_le (length_dropWhile_le _ _)
  · exact Nat.lt_succ_self _

def writeAll (ts : List Token) : Text := Text.join [' '] (ts.map text)

end Token

end DeskCalculator
