import DeskCalculator.Expression.Token

/-!
# Expression trees

A literal keeps its text, which is given a value only when the tree is
evaluated. The written form of a tree has parentheses around every operation.
-/

set_option autoImplicit false

namespace DeskCalculator

inductive SignOp where
  | plus
  | minus
  deriving DecidableEq, Repr

inductive BinaryOp where
  | add
  | sub
  | mul
  | div
  | mod
  | pow
  deriving DecidableEq, Repr

def SignOp.token : SignOp → Token
  | plus => .plus
  | minus => .minus

def BinaryOp.token : BinaryOp → Token
  | add => .plus
  | sub => .minus
  | mul => .times
  | div => .slash
  | mod => .percent
  | pow => .caret

inductive Expr where
  | literal (text : Text)
  | constant (c : Constant)
  | signed (op : SignOp) (x : Expr)
  | binary (op : BinaryOp) (a b : Expr)
  | call (name : Text) (args : List Expr)
  deriving Repr

namespace Expr

def factorialName : Text := "fact".toList

mutual

def write : Expr → Text
  | literal text => text
  | constant c => c.name
  | signed op x => ['('] ++ op.token.text ++ x.write ++ [')']
  | binary op a b => ['('] ++ a.write ++ op.token.text ++ b.write ++ [')']
  | call name args => name ++ ['('] ++ writeArgs args ++ [')']

def writeArgs : List Expr → Text
  | [] => []
  | [a] => a.write
  | a :: rest => a.write ++ [',', ' '] ++ writeArgs rest

end

end Expr

end DeskCalculator
