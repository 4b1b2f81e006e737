import DeskCalculator.Proofs.Parentheses
import DeskCalculator.Proofs.Spine

/-!
# The role of an operator

Outside parentheses a derivation consumes an operator in one of two roles: it joins two
operands, or it is a sign of the operand that follows. What follows it, up to the end, is an
expression in both cases. What stands before it is one just if it joins; before a sign stands
nothing or another operator. So the role can be read off the tokens before the operator.
-/

set_option autoImplicit false

namespace DeskCalculator

namespace BinaryOp

def left : BinaryOp → Level
  | add | sub => .sum
  | mul | div | mod => .product
  | pow => .signed

def right : BinaryOp → Level
  | add | sub => .product
  | mul | div | mod | pow => .power

theorem derives {op : BinaryOp} {xs ys : List Token} {a b : Expr} (ha : Derives op.left xs a)
    (hb : Derives op.right ys b) : Derives op.level (xs ++ op.token :: ys) (.binary op a b) := by
  cases op with
  | add | sub => exact .sum rfl ha hb
  | mul | div | mod => exact .product rfl ha hb
  | pow => exact .power ha hb

theorem derives_of_left {op : BinaryOp} {xs : List Token} {a : Expr} (h : Derives op.left xs a) :
    Derives op.level xs a := by
  cases op with
  | add | sub | mul | div | mod => exact h
  | pow => exact .powerOfSigned h

theorem derives_of_right {op : BinaryOp} {xs : List Token} {a : Expr}
    (h : Derives op.right xs a) : Derives op.level xs a := by
  cases op with
  | add | sub => exact .sumOfProduct h
  | mul | div | mod => exact .productOfPower h
  | pow => exact h

theorem token_injective : Function.Injective token := by
  intro op op' h
  cases op <;> cases op' <;> first | rfl | cases h

end BinaryOp

theorem SignOp.token_injective : Function.Injective SignOp.token := by
  intro op op' h
  cases op <;> cases op' <;> first | rfl | cases h

inductive Role where
  | joins (op : BinaryOp)
  | signs (op : SignOp)
  deriving DecidableEq, Repr

/-- The token between `xs` and `ys` is consumed in that role, outside parentheses. -/
inductive Consumes : Role → Level → List Token → Token → List Token → Expr → Prop
  | joins {op : BinaryOp} {xs ys : List Token} {a b : Expr} :
      Derives op.left xs a → Derives op.right ys b →
      Consumes (.joins op) op.level xs op.token ys (.binary op a b)
  | signs (op : SignOp) {ys : List Token} {a : Expr} : Derives .signed ys a →
      Consumes (.signs op) .signed [] op.token ys (.signed op a)
  | left {role : Role} {op : BinaryOp} {token : Token} {xs ys zs : List Token} {a b : Expr} :
      Consumes role op.left xs token ys a → Derives op.right zs b →
      Consumes role op.level xs token (ys ++ op.token :: zs) (.binary op a b)
  | right {role : Role} {op : BinaryOp} {token : Token} {xs ys zs : List Token} {a b : Expr} :
      Derives op.left zs a → Consumes role op.right xs token ys b →
      Consumes role op.level (zs ++ op.token :: xs) token ys (.binary op a b)
  | underSign {role : Role} (op : SignOp) {token : Token} {xs ys : List Token} {a : Expr} :
      Consumes role .signed xs token ys a →
      Consumes role .signed (op.token :: xs) token ys (.signed op a)
  | sumOfProduct {role : Role} {token : Token} {xs ys : List Token} {a : Expr} :
      Consumes role .product xs token ys a → Consumes role .sum xs token ys a
  | productOfPower {role : Role} {token : Token} {xs ys : List Token} {a : Expr} :
      Consumes role .power xs token ys a → Consumes role .product xs token ys a
  | powerOfSigned {role : Role} {token : Token} {xs ys : List Token} {a : Expr} :
      Consumes role .signed xs token ys a → Consumes role .power xs token ys a

def Token.IsOperator (token : Token) : Prop := ∃ op : BinaryOp, token = op.token

theorem SignOp.isOperator_token (op : SignOp) : op.token.IsOperator := by
  cases op with
  | plus => exact ⟨.add, rfl⟩
  | minus => exact ⟨.sub, rfl⟩

theorem Token.IsOperator.closesOperand {token : Token} (h : token.IsOperator) :
    token.closesOperand = false := by
  obtain ⟨op, rfl⟩ := h
  cases op <;> rfl

def Role.token : Role → Token
  | joins op => op.token
  | signs op => op.token

namespace Consumes

variable {role : Role} {level : Level} {token : Token} {xs ys : List Token} {a : Expr}

theorem derives (h : Consumes role level xs token ys a) :
    Derives level (xs ++ token :: ys) a := by
  induction h with
  | joins ha hb => exact BinaryOp.derives ha hb
  | signs op ha => exact .signed op ha
  | left _ hb ih => simpa using BinaryOp.derives ih hb
  | right ha _ ih => simpa using BinaryOp.derives ha ih
  | underSign op _ ih => exact .signed op ih
  | sumOfProduct _ ih => exact .sumOfProduct ih
  | productOfPower _ ih => exact .productOfPower ih
  | powerOfSigned _ ih => exact .powerOfSigned ih

theorem token_eq (h : Consumes role level xs token ys a) : token = role.token := by
  induction h with
  | joins _ _ | signs _ _ => rfl
  | left _ _ ih | right _ _ ih | underSign _ _ ih | sumOfProduct _ ih | productOfPower _ ih
  | powerOfSigned _ ih => exact ih

theorem exists_after (h : Consumes role level xs token ys a) : ∃ b, Derives level ys b := by
  induction h with
  | joins _ hb => exact ⟨_, BinaryOp.derives_of_right hb⟩
  | signs _ ha => exact ⟨_, ha⟩
  | left _ hb ih =>
    obtain ⟨_, ha⟩ := ih
    exact ⟨_, BinaryOp.derives ha hb⟩
  | right _ _ ih =>
    obtain ⟨b, hb⟩ := ih
    exact ⟨b, BinaryOp.derives_of_right hb⟩
  | underSign _ _ ih => exact ih
  | sumOfProduct _ ih =>
    obtain ⟨b, hb⟩ := ih
    exact ⟨b, .sumOfProduct hb⟩
  | productOfPower _ ih =>
    obtain ⟨b, hb⟩ := ih
    exact ⟨b, .productOfPower hb⟩
  | powerOfSigned _ ih =>
    obtain ⟨b, hb⟩ := ih
    exact ⟨b, .powerOfSigned hb⟩

theorem exists_before {op : BinaryOp} (h : Consumes (.joins op) level xs token ys a) :
    ∃ b, Derives level xs b := by
  generalize hrole : Role.joins op = role at h
  induction h with
  | joins ha _ => exact ⟨_, BinaryOp.derives_of_left ha⟩
  | signs _ _ => cases hrole
  | left _ _ ih =>
    obtain ⟨b, hb⟩ := ih hrole
    exact ⟨b, BinaryOp.derives_of_left hb⟩
  | right ha _ ih =>
    obtain ⟨_, hb⟩ := ih hrole
    exact ⟨_, BinaryOp.derives ha hb⟩
  | underSign op _ ih =>
    obtain ⟨_, hb⟩ := ih hrole
    exact ⟨_, .signed op hb⟩
  | sumOfProduct _ ih =>
    obtain ⟨b, hb⟩ := ih hrole
    exact ⟨b, .sumOfProduct hb⟩
  | productOfPower _ ih =>
    obtain ⟨b, hb⟩ := ih hrole
    exact ⟨b, .productOfPower hb⟩
  | powerOfSigned _ ih =>
    obtain ⟨b, hb⟩ := ih hrole
    exact ⟨b, .powerOfSigned hb⟩

theorem isOperator_of_signs {op : SignOp} (h : Consumes (.signs op) level xs token ys a) :
    ∀ x ∈ xs.getLast?, x.IsOperator := by
  have hlast : ∀ {zs : List Token} {y : Token}, y.IsOperator →
      (∀ x ∈ zs.getLast?, x.IsOperator) → ∀ x ∈ (y :: zs).getLast?, x.IsOperator := by
    intro zs y hy hzs x hx
    rcases List.eq_nil_or_concat' zs with rfl | ⟨zs, z, rfl⟩
    · obtain rfl : y = x := by simpa using hx
      exact hy
    · exact hzs x (by simpa [List.getLast?_cons] using hx)
  generalize hrole : Role.signs op = role at h
  induction h with
  | joins _ _ => cases hrole
  | signs _ _ =>
    intro x hx
    cases hx
  | left _ _ ih | sumOfProduct _ ih | productOfPower _ ih | powerOfSigned _ ih => exact ih hrole
  | @right _ op _ _ _ _ _ _ _ _ ih =>
    intro x hx
    refine hlast ⟨op, rfl⟩ (ih hrole) x ?_
    rwa [List.getLast?_append_cons] at hx
  | underSign op _ ih => exact hlast op.isOperator_token (ih hrole)

theorem wellJoined_of_joins {op : BinaryOp} (h : Consumes (.joins op) level xs token ys a)
    (hl : level ≠ .openCall) : WellJoined xs := by
  obtain ⟨b, hb⟩ := h.exists_before
  exact wellJoined_of_derives (derives_sum_of_derives hb hl)

end Consumes

theorem append_cons_cases {α : Type} {us vs xs ys : List α} {o t : α}
    (h : us ++ o :: vs = xs ++ t :: ys) : (us = xs ∧ o = t ∧ vs = ys) ∨
      (∃ m, us = xs ++ t :: m ∧ ys = m ++ o :: vs) ∨ ∃ m, xs = us ++ o :: m ∧ vs = m ++ t :: ys := by
  rcases List.append_eq_append_iff.mp h with ⟨m, rfl, hm⟩ | ⟨m, rfl, hm⟩
  · cases m with
    | nil =>
      obtain ⟨rfl, rfl⟩ := List.cons.inj hm
      exact .inl ⟨by simp, rfl, rfl⟩
    | cons c m =>
      obtain ⟨rfl, rfl⟩ := List.cons.inj hm
      exact .inr (.inr ⟨m, rfl, rfl⟩)
  · cases m with
    | nil =>
      obtain ⟨rfl, rfl⟩ := List.cons.inj hm
      exact .inl ⟨by simp, rfl, rfl⟩
    | cons c m =>
      obtain ⟨rfl, rfl⟩ := List.cons.inj hm
      exact .inr (.inl ⟨m, rfl, rfl⟩)

section
variable {xs ys zs body : List Token} {token x : Token} {a b : Expr}

theorem settled_of_derives {level : Level} (h : Derives level xs a) (hl : level ≠ .openCall) :
    net Token.nesting xs = 0 :=
  Balanced.settled (balancedAt_of_derives (derives_sum_of_derives h hl))

/-- The operators outside parentheses in the tokens `ts` have a role in the tree `a`. -/
def HasRoles (level : Level) (ts : List Token) (a : Expr) : Prop :=
  ∀ {xs ys : List Token} {token : Token}, ts = xs ++ token :: ys → token.IsOperator →
    net Token.nesting ys = 0 → ∃ role, Consumes role level xs token ys a

theorem HasRoles.join {op : BinaryOp} {us vs : List Token} (ha : Derives op.left us a)
    (hb : Derives op.right vs b) (iha : HasRoles op.left us a) (ihb : HasRoles op.right vs b) :
    HasRoles op.level (us ++ op.token :: vs) (.binary op a b) := by
  intro xs ys token heq ht hnet
  rcases append_cons_cases heq with ⟨rfl, rfl, rfl⟩ | ⟨m, hus, rfl⟩ | ⟨m, rfl, hvs⟩
  · exact ⟨.joins op, .joins ha hb⟩
  · have hvs : net Token.nesting vs = 0 :=
      settled_of_derives hb (by cases op <;> simp [BinaryOp.right])
    obtain ⟨role, hrole⟩ := iha hus ht (by simpa [hvs] using hnet)
    exact ⟨role, .left hrole hb⟩
  · obtain ⟨role, hrole⟩ := ihb hvs ht hnet
    exact ⟨role, .right ha hrole⟩

theorem HasRoles.promote {level level' : Level} {ts : List Token} (h : HasRoles level ts a)
    (hp : ∀ {role xs token ys}, Consumes role level xs token ys a →
      Consumes role level' xs token ys a) : HasRoles level' ts a := by
  intro xs ys token heq ht hnet
  obtain ⟨role, hrole⟩ := h heq ht hnet
  exact ⟨role, hp hrole⟩

theorem exists_of_concat (h : zs ++ [x] = xs ++ token :: ys) (hx : x.closesOperand = true)
    (ht : token.IsOperator) : ∃ m, zs = xs ++ token :: m ∧ ys = m ++ [x] := by
  rcases append_cons_cases h with ⟨-, rfl, -⟩ | hm | ⟨m, -, hm⟩
  · rw [ht.closesOperand] at hx
    cases hx
  · exact hm
  · simp at hm

theorem net_le_of_opened (hbody : Balanced Token.nesting body) (ht : token.IsOperator)
    (h : .opening :: body = xs ++ token :: ys) : net Token.nesting ys ≤ 0 := by
  cases xs with
  | nil =>
    obtain ⟨rfl, -⟩ := List.cons.inj h
    obtain ⟨op, hop⟩ := ht
    cases op <;> cases hop
  | cons x xs =>
    obtain ⟨-, rfl⟩ := List.cons.inj h
    exact hbody.suffix ys ((List.suffix_cons token ys).trans (List.suffix_append xs _))

theorem not_outside (hbody : Balanced Token.nesting body)
    (h : (.opening :: body) ++ [.closing] = xs ++ token :: ys) (ht : token.IsOperator) :
    net Token.nesting ys ≠ 0 := by
  obtain ⟨m, hm, rfl⟩ := exists_of_concat h rfl ht
  have hle := net_le_of_opened hbody ht hm
  simp only [net_append, net_cons, net_nil, Token.nesting]
  omega

end

/-- What a derivation at a level makes of the operators outside parentheses. A suffixed tree
has none, and an open call is part of parentheses. -/
def Operates : Level → List Token → Expr → Prop
  | .openCall, _, _ => True
  | .suffixed, ts, _ | .atom, ts, _ =>
    ∀ {xs ys : List Token} {token : Token}, ts = xs ++ token :: ys → token.IsOperator →
      net Token.nesting ys ≠ 0
  | level, ts, a => HasRoles level ts a

theorem operates_of_derives {level : Level} {ts : List Token} {a : Expr}
    (h : Derives level ts a) : Operates level ts a := by
  induction h with
  | @sum op _ _ _ _ hlevel ha hb iha ihb =>
    cases op with
    | add => exact @HasRoles.join _ _ .add _ _ ha hb iha ihb
    | sub => exact @HasRoles.join _ _ .sub _ _ ha hb iha ihb
    | mul | div | mod | pow => cases hlevel
  | @product op _ _ _ _ hlevel ha hb iha ihb =>
    cases op with
    | mul => exact @HasRoles.join _ _ .mul _ _ ha hb iha ihb
    | div => exact @HasRoles.join _ _ .div _ _ ha hb iha ihb
    | mod => exact @HasRoles.join _ _ .mod _ _ ha hb iha ihb
    | add | sub | pow => cases hlevel
  | power ha hb iha ihb => exact @HasRoles.join _ _ .pow _ _ ha hb iha ihb
  | @signed op zs b ha ih =>
    intro xs ys token heq ht hnet
    cases xs with
    | nil =>
      obtain ⟨rfl, rfl⟩ := List.cons.inj heq
      exact ⟨.signs op, .signs op ha⟩
    | cons x xs =>
      obtain ⟨rfl, rfl⟩ := List.cons.inj heq
      obtain ⟨role, hrole⟩ := ih rfl ht hnet
      exact ⟨role, .underSign op hrole⟩
  | sumOfProduct _ ih => exact ih.promote .sumOfProduct
  | productOfPower _ ih => exact ih.promote .productOfPower
  | powerOfSigned _ ih => exact ih.promote .powerOfSigned
  | signedOfSuffixed _ ih => exact fun heq ht hnet => absurd hnet (ih heq ht)
  | suffixedOfAtom _ ih => exact ih
  | suffixed _ ih =>
    intro xs ys token heq ht
    obtain ⟨m, hm, rfl⟩ := exists_of_concat heq rfl ht
    simpa [Token.nesting] using ih hm ht
  | number _ | constant _ =>
    intro xs ys token heq ht
    obtain ⟨m, hm, -⟩ := @exists_of_concat _ _ [] _ _ heq rfl ht
    simp at hm
  | group ha _ => exact not_outside (balancedAt_of_derives ha)
  | call ha _ =>
    intro xs ys token heq ht
    obtain ⟨name, body, rfl, hbody⟩ := balancedAt_of_derives ha
    cases xs with
    | nil =>
      obtain ⟨rfl, -⟩ := List.cons.inj heq
      obtain ⟨op, hop⟩ := ht
      cases op <;> cases hop
    | cons x xs => exact not_outside hbody (List.cons.inj heq).2 ht
  | firstArgument _ _ _ | nextArgument _ _ _ _ => exact trivial

/-- Every operator of an expression that stands outside parentheses has a role. -/
theorem exists_role_of_derives {xs ys : List Token} {token : Token} {a : Expr}
    (h : Derives .sum (xs ++ token :: ys) a) (ht : token.IsOperator)
    (hnet : net Token.nesting ys = 0) : ∃ role, Consumes role .sum xs token ys a :=
  operates_of_derives h rfl ht hnet

end DeskCalculator
