import DeskCalculator.Text

/-!
# The last entry of a text

Editing keys work on the end of the text under edit: on its last number or
name, with a sign if it has one, on the last operator outside parentheses, and
on the operand before that operator. A minus is a sign at the start of the text
or right after one of a few symbols; anywhere else it subtracts. Each scan runs
over the reversed text and gives the parts in order.
-/

set_option autoImplicit false

namespace DeskCalculator

/-- A text cut around its last entry; nothing but spaces follows the entry. -/
structure Entry where
  before : Text
  entry : Text
  after : Text
  deriving DecidableEq, Repr

namespace Entry

def isEntryCharacter (c : Char) : Bool := c.isAlphanum || c = '.'

def beforeSign : List Char := ['+', '-', '*', '/', '^', '(', '%']

def operators : List Char := ['+', '-', '*', '/']

/-- Whether a minus is a sign after a text, which is given reversed. -/
def opensSign : Text → Bool
  | [] => true
  | c :: _ => beforeSign.contains c

def last? (t : Text) : Option Entry :=
  let spaces := t.reverse.takeWhile (· = ' ')
  let body := t.reverse.dropWhile (· = ' ')
  let word := body.takeWhile isEntryCharacter
  let rest := body.dropWhile isEntryCharacter
  if word.isEmpty then none
  else
    match rest with
    | '-' :: before =>
      if opensSign before then some ⟨before.reverse, '-' :: word.reverse, spaces.reverse⟩
      else some ⟨rest.reverse, word.reverse, spaces.reverse⟩
    | _ => some ⟨rest.reverse, word.reverse, spaces.reverse⟩

def start (e : Entry) : Nat := e.before.size

def stop (e : Entry) : Nat := e.before.size + e.entry.size

def replace (e : Entry) (t : Text) : Text := e.before ++ t ++ e.after

def separates (c : Char) (before : Text) : Bool :=
  operators.contains c && !(c = '-' && opensSign before)

/-- What stands before the last operator outside parentheses of a reversed text, reversed
as well, inside `depth` parentheses that are closed further on. -/
def beforeOperator? : Nat → Text → Option Text
  | _, [] => none
  | depth, c :: before =>
    if c = ')' then beforeOperator? (depth + 1) before
    else if c = '(' then beforeOperator? (depth - 1) before
    else if depth = 0 && separates c before then some before
    else beforeOperator? depth before

def lastOperator? (t : Text) : Option Text := (beforeOperator? 0 t.reverse).map List.reverse

/-- The last operand of a reversed text, reversed as well: it ends at an operator outside
parentheses or at an open parenthesis. -/
def operandRun : Nat → Text → Text
  | _, [] => []
  | depth, c :: before =>
    if c = ')' then c :: operandRun (depth + 1) before
    else if c = '(' then
      if depth = 0 then [] else c :: operandRun (depth - 1) before
    else if depth = 0 && separates c before then []
    else c :: operandRun depth before

def lastOperand? (t : Text) : Option Text :=
  let blanks := t.reverse.takeWhile Text.isBlank
  let body := t.reverse.dropWhile Text.isBlank
  if body.isEmpty then none else some ((operandRun 0 body).reverse ++ blanks.reverse)

/-! The same scans over the front of a text, with positions in bytes. -/

def operatorBefore? (t : Text) (limit : Nat) : Option Nat :=
  (lastOperator? (t.takeBytes limit)).map Text.size

def operandBefore? (t : Text) (position : Nat) : Option Text :=
  lastOperand? (t.takeBytes position)

end Entry

end DeskCalculator
