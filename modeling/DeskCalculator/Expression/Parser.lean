import DeskCalculator.Expression.Tree
import DeskCalculator.Reading

/-!
# Reading a tree from tokens

One function for each binding strength reads a tree from the front of a token
list and gives the tokens left over. Every reading consumes a token, which its
result records; that is what ends the recursion.
-/

set_option autoImplicit false

namespace DeskCalculator

namespace Parser

def sumOp? : Token → Option BinaryOp
  | .plus => some .add
  | .minus => some .sub
  | _ => none

def productOp? : Token → Option BinaryOp
  | .times => some .mul
  | .slash => some .div
  | .percent => some .mod
  | _ => none

def signOp? : Token → Option SignOp
  | .plus => some .plus
  | .minus => some .minus
  | _ => none

/-- Takes the signs `!` that follow a tree, each of which calls the factorial. -/
def suffixes {ts : List Token} (left : Reading Expr ts) : Reading Expr ts :=
  match h : left.rest with
  | .bang :: rest =>
    suffixes ⟨.call Expr.factorialName [left.value], rest, left.length_tail_lt h⟩
  | _ => left
termination_by left.rest.length
decreasing_by exact left.length_tail_lt_rest h

mutual

def sum (ts : List Token) : Except CalcError (Reading Expr ts) := do
  let left ← product ts
  have := left.shorter
  sumTail left
termination_by (ts.length, 9)

def sumTail {ts : List Token} (left : Reading Expr ts) : Except CalcError (Reading Expr ts) :=
  match h : left.rest with
  | [] => .ok left
  | token :: rest =>
    match sumOp? token with
    | none => .ok left
    | some op => do
      have := left.length_tail_lt_rest h
      let right ← product rest
      have := right.shorter
      sumTail (left.next h right (.binary op left.value right.value))
termination_by (left.rest.length, 8)
decreasing_by
  · exact Prod.Lex.left _ _ this
  · exact Prod.Lex.left _ _ (Nat.lt_trans right.shorter (left.length_tail_lt_rest h))

def product (ts : List Token) : Except CalcError (Reading Expr ts) := do
  let left ← power ts
  have := left.shorter
  productTail left
termination_by (ts.length, 7)

def productTail {ts : List Token} (left : Reading Expr ts) :
    Except CalcError (Reading Expr ts) :=
  match h : left.rest with
  | [] => .ok left
  | token :: rest =>
    match productOp? token with
    | none => .ok left
    | some op => do
      have := left.length_tail_lt_rest h
      let right ← power rest
      have := right.shorter
      productTail (left.next h right (.binary op left.value right.value))
termination_by (left.rest.length, 6)
decreasing_by
  · exact Prod.Lex.left _ _ this
  · exact Prod.Lex.left _ _ (Nat.lt_trans right.shorter (left.length_tail_lt_rest h))

def power (ts : List Token) : Except CalcError (Reading Expr ts) := do
  let base ← signed ts
  match h : base.rest with
  | .caret :: rest => do
    have := base.length_tail_lt h
    let exponent ← power rest
    return base.next h exponent (.binary .pow base.value exponent.value)
  | _ => return base
termination_by (ts.length, 5)

def signed (ts : List Token) : Except CalcError (Reading Expr ts) :=
  match ts with
  | [] => suffixed []
  | token :: rest =>
    match signOp? token with
    | some op => do
      let x ← signed rest
      return (x.map (.signed op)).after token
    | none => suffixed (token :: rest)
termination_by (ts.length, 4)

def suffixed (ts : List Token) : Except CalcError (Reading Expr ts) := do
  return suffixes (← atom ts)
termination_by (ts.length, 3)

def atom (ts : List Token) : Except CalcError (Reading Expr ts) :=
  match ts with
  | [] => .error .unexpectedEnd
  | .number text :: rest => .ok ⟨.literal text, rest, Nat.lt_succ_self _⟩
  | .constant c :: rest => .ok ⟨.constant c, rest, Nat.lt_succ_self _⟩
  | .opening :: rest => do
    let inner ← sum rest
    match h : inner.rest with
    | .closing :: after =>
      return ⟨inner.value, after, Nat.lt_succ_of_lt (inner.length_tail_lt h)⟩
    | _ => throw .groupNotClosed
  | .name name :: .opening :: rest =>
    if rest.head? = some .closing then .error (.callWithoutArgument name)
    else do
      let call ← arguments name rest
      return (call.after .opening).after (.name name)
  | .name name :: _ => .error (.callNotOpened name)
  | token :: _ => .error (.unexpectedToken token.text)
termination_by (ts.length, 2)

def arguments (name : Text) (ts : List Token) : Except CalcError (Reading Expr ts) := do
  let first ← sum ts
  have := first.shorter
  argumentsTail name [first.value] first
termination_by (ts.length, 10)

def argumentsTail (name : Text) (args : List Expr) {ts : List Token} (last : Reading Expr ts) :
    Except CalcError (Reading Expr ts) :=
  match h : last.rest with
  | .comma :: rest => do
    have := last.length_tail_lt_rest h
    let next ← sum rest
    have := next.shorter
    argumentsTail name (args ++ [next.value]) (last.next h next next.value)
  | .closing :: rest => .ok ⟨.call name args, rest, last.length_tail_lt h⟩
  | _ => .error (.callNotClosed name)
termination_by (last.rest.length, 11)
decreasing_by
  · exact Prod.Lex.left _ _ this
  · exact Prod.Lex.left _ _ (Nat.lt_trans next.shorter (last.length_tail_lt_rest h))

end

end Parser

/-- The tree of a whole token list; no tokens at all stand for zero. -/
def Expr.ofTokens (ts : List Token) : Except CalcError Expr :=
  if ts.isEmpty then .ok (.literal ['0'])
  else do
    let r ← Parser.sum ts
    match r.rest with
    | [] => return r.value
    | token :: _ => throw (.trailingToken token.text)

end DeskCalculator
