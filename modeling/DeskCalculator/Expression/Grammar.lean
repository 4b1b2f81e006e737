import DeskCalculator.Expression.Tree

/-!
# The grammar of expressions

The grammar as a relation between token lists and trees, with a level for every
binding strength. Sums and products associate to the left, powers to the right;
a sign binds more tightly than a power, and a suffix `!` more tightly still.
-/

set_option autoImplicit false

namespace DeskCalculator

/-- Binding strengths, from the loosest. An open call is a call that still lacks its
closing parenthesis. -/
inductive Level where
  | sum
  | product
  | power
  | signed
  | suffixed
  | atom
  | openCall
  deriving DecidableEq, Repr

def BinaryOp.level : BinaryOp → Level
  | add | sub => .sum
  | mul | div | mod => .product
  | pow => .power

/-- The whole of a token list derives a tree at a level. -/
inductive Derives : Level → List Token → Expr → Prop
  | sum {op : BinaryOp} {xs ys : List Token} {a b : Expr} : op.level = .sum →
      Derives .sum xs a → Derives .product ys b →
      Derives .sum (xs ++ op.token :: ys) (.binary op a b)
  | sumOfProduct {xs : List Token} {a : Expr} : Derives .product xs a → Derives .sum xs a
  | product {op : BinaryOp} {xs ys : List Token} {a b : Expr} : op.level = .product →
      Derives .product xs a → Derives .power ys b →
      Derives .product (xs ++ op.token :: ys) (.binary op a b)
  | productOfPower {xs : List Token} {a : Expr} : Derives .power xs a → Derives .product xs a
  | power {xs ys : List Token} {a b : Expr} :
      Derives .signed xs a → Derives .power ys b →
      Derives .power (xs ++ .caret :: ys) (.binary .pow a b)
  | powerOfSigned {xs : List Token} {a : Expr} : Derives .signed xs a → Derives .power xs a
  | signed (op : SignOp) {xs : List Token} {a : Expr} :
      Derives .signed xs a → Derives .signed (op.token :: xs) (.signed op a)
  | signedOfSuffixed {xs : List Token} {a : Expr} :
      Derives .suffixed xs a → Derives .signed xs a
  | suffixed {xs : List Token} {a : Expr} :
      Derives .suffixed xs a → Derives .suffixed (xs ++ [.bang]) (.call Expr.factorialName [a])
  | suffixedOfAtom {xs : List Token} {a : Expr} : Derives .atom xs a → Derives .suffixed xs a
  | number (text : Text) : Derives .atom [.number text] (.literal text)
  | constant (c : Constant) : Derives .atom [.constant c] (.constant c)
  | group {xs : List Token} {a : Expr} :
      Derives .sum xs a → Derives .atom (.opening :: xs ++ [.closing]) a
  | call {xs : List Token} {a : Expr} :
      Derives .openCall xs a → Derives .atom (xs ++ [.closing]) a
  | firstArgument (name : Text) {xs : List Token} {a : Expr} :
      Derives .sum xs a → Derives .openCall (.name name :: .opening :: xs) (.call name [a])
  | nextArgument {name : Text} {args : List Expr} {xs ys : List Token} {a : Expr} :
      Derives .openCall xs (.call name args) → Derives .sum ys a →
      Derives .openCall (xs ++ .comma :: ys) (.call name (args ++ [a]))

end DeskCalculator
