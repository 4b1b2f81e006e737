import DeskCalculator.Expression.Evaluation
import DeskCalculator.Proofs.Adjacency
import DeskCalculator.Proofs.Token

/-!
# Parentheses

An opening parenthesis counts for one and a closing one for minus one, in tokens and in
characters alike. What the grammar derives adds up to zero, and no part at its end opens more
parentheses than it closes; the text of an expression has the count of its tokens. So a scan
from the right that counts parentheses never meets one that is left open.
-/

set_option autoImplicit false

namespace DeskCalculator

section
variable {α : Type} {nesting : α → ℤ}

def net (nesting : α → ℤ) (xs : List α) : ℤ := (xs.map nesting).sum

@[simp] theorem net_nil : net nesting [] = 0 := rfl

@[simp] theorem net_cons (x : α) (xs : List α) :
    net nesting (x :: xs) = nesting x + net nesting xs := by
  simp [net]

@[simp] theorem net_append (xs ys : List α) :
    net nesting (xs ++ ys) = net nesting xs + net nesting ys := by
  simp [net]

theorem net_eq_zero {xs : List α} (h : ∀ x ∈ xs, nesting x = 0) : net nesting xs = 0 := by
  induction xs with
  | nil => rfl
  | cons x xs ih =>
    rw [net_cons, h x List.mem_cons_self, ih fun y hy => h y (List.mem_cons_of_mem x hy), add_zero]

/-- As many parentheses are closed as opened, and at no place is one left open to the right. -/
structure Balanced (nesting : α → ℤ) (xs : List α) : Prop where
  settled : net nesting xs = 0
  suffix : ∀ ys, ys <:+ xs → net nesting ys ≤ 0

theorem suffix_append_cases {xs ys zs : List α} (h : zs <:+ xs ++ ys) :
    zs <:+ ys ∨ ∃ ws, ws <:+ xs ∧ zs = ws ++ ys := by
  rcases List.suffix_or_suffix_of_suffix h (List.suffix_append xs ys) with h' | ⟨ws, rfl⟩
  · exact .inl h'
  · exact .inr ⟨ws, List.suffix_append_self_iff.mp h, rfl⟩

namespace Balanced

variable {x y : α} {xs ys : List α}

theorem nil : Balanced nesting [] where
  settled := rfl
  suffix ys h := by
    rw [List.suffix_nil.mp h]
    rfl

theorem append (h : Balanced nesting xs) (h' : Balanced nesting ys) :
    Balanced nesting (xs ++ ys) where
  settled := by rw [net_append, h.settled, h'.settled, add_zero]
  suffix zs hz := by
    rcases suffix_append_cases hz with hz | ⟨ws, hw, rfl⟩
    · exact h'.suffix zs hz
    · rw [net_append, h'.settled, add_zero]
      exact h.suffix ws hw

theorem cons (hx : nesting x = 0) (h : Balanced nesting xs) : Balanced nesting (x :: xs) where
  settled := by rw [net_cons, hx, h.settled, add_zero]
  suffix ys hy := by
    rcases List.suffix_cons_iff.mp hy with rfl | hy
    · rw [net_cons, hx, h.settled, add_zero]
    · exact h.suffix ys hy

theorem join (h : Balanced nesting xs) (hx : nesting x = 0) (h' : Balanced nesting ys) :
    Balanced nesting (xs ++ x :: ys) := h.append (h'.cons hx)

theorem enclose (hx : nesting x = 1) (h : Balanced nesting xs) (hy : nesting y = -1) :
    Balanced nesting (x :: xs ++ [y]) where
  settled := by simp [hx, hy, h.settled]
  suffix zs hz := by
    rcases suffix_append_cases hz with hz | ⟨ws, hw, rfl⟩
    · rcases List.suffix_cons_iff.mp hz with rfl | hz
      · simp [hy]
      · simp [List.suffix_nil.mp hz]
    · rcases List.suffix_cons_iff.mp hw with rfl | hw
      · simp [hx, hy, h.settled]
      · have hle := h.suffix ws hw
        simp only [net_append, net_cons, net_nil, hy]
        omega

theorem of_append (h : Balanced nesting (xs ++ ys)) (hy : net nesting ys = 0) :
    Balanced nesting xs where
  settled := by simpa [hy] using h.settled
  suffix zs hz := by
    have hle := h.suffix (zs ++ ys) (List.suffix_append_self_iff.mpr hz)
    rwa [net_append, hy, add_zero] at hle

end Balanced

end

/-! ### Tokens -/

def Token.nesting : Token → ℤ
  | opening => 1
  | closing => -1
  | _ => 0

@[simp] theorem BinaryOp.nesting_token (op : BinaryOp) : op.token.nesting = 0 := by
  cases op <;> rfl

@[simp] theorem SignOp.nesting_token (op : SignOp) : op.token.nesting = 0 := by
  cases op <;> rfl

/-- The parentheses of a derivation at a level: only an open call has one that is not closed. -/
def BalancedAt : Level → List Token → Prop
  | .openCall, xs => ∃ name body, xs = .name name :: .opening :: body ∧ Balanced Token.nesting body
  | _, xs => Balanced Token.nesting xs

theorem balancedAt_of_derives {level : Level} {xs : List Token} {a : Expr}
    (h : Derives level xs a) : BalancedAt level xs := by
  induction h with
  | sum _ _ _ iha ihb | product _ _ _ iha ihb => exact iha.join (BinaryOp.nesting_token _) ihb
  | power _ _ iha ihb => exact iha.join rfl ihb
  | signed op _ ih => exact ih.cons op.nesting_token
  | suffixed _ ih => exact ih.append (Balanced.nil.cons rfl)
  | number _ | constant _ => exact Balanced.nil.cons rfl
  | group _ ih => exact ih.enclose rfl rfl
  | call _ ih =>
    obtain ⟨name, body, rfl, hb⟩ := ih
    exact Balanced.cons rfl (hb.enclose rfl rfl)
  | firstArgument name _ ih => exact ⟨name, _, rfl, ih⟩
  | nextArgument _ _ ihc iha =>
    obtain ⟨name, body, rfl, hb⟩ := ihc
    exact ⟨name, _, rfl, hb.join rfl iha⟩
  | sumOfProduct _ ih | productOfPower _ ih | powerOfSigned _ ih | signedOfSuffixed _ ih
  | suffixedOfAtom _ ih => exact ih

/-! ### Characters -/

def Text.nesting (c : Char) : ℤ := if c = '(' then 1 else if c = ')' then -1 else 0

theorem nesting_of_isLexemeCharacter {c : Char} (h : Token.isLexemeCharacter c = true) :
    Text.nesting c = 0 := by
  rw [Text.nesting, if_neg, if_neg] <;> (rintro rfl; cases h)

theorem nesting_of_isBlank {c : Char} (h : Text.isBlank c = true) : Text.nesting c = 0 := by
  rw [Text.nesting, if_neg, if_neg] <;> (rintro rfl; cases h)

open Token

variable {t : Text} {ts : List Token} {token : Token} {a : Expr}

theorem isLexemeCharacter_of_isLexeme (h : token.WellFormed) (hl : token.isLexeme = true) :
    ∀ c ∈ token.text, isLexemeCharacter c = true := by
  intro c hc
  cases token with
  | number u =>
    rcases IsNumeral.isDigit_or_point h c hc with hd | rfl
    · exact isLexemeCharacter_of_isDigit hd
    · rfl
  | name u => exact isLexemeCharacter_of_isWord (IsName.isWord h c hc)
  | constant k =>
    have hname : ∀ d ∈ k.name, isLexemeCharacter d = true :=
      List.all_eq_true.mp (by cases k <;> rfl)
    exact hname c hc
  | plus | minus | times | slash | percent | caret | bang | opening | closing | comma => cases hl

theorem net_text_of_wellFormed (h : token.WellFormed) :
    net Text.nesting token.text = token.nesting := by
  cases token with
  | number _ | name _ | constant _ =>
    exact net_eq_zero fun c hc =>
      nesting_of_isLexemeCharacter (isLexemeCharacter_of_isLexeme h rfl c hc)
  | plus | minus | times | slash | percent | caret | bang | opening | closing | comma => rfl

theorem eq_of_toLower_eq {c d : Char} (hd : d.val.toNat < 97) (h : c.toLower = d) : c = d := by
  have hc := toNat_val_toLower c
  rw [h] at hc
  split at hc
  · omega
  · exact Char.ext (UInt32.toNat_inj.mp hc.symm)

theorem nesting_toLower (c : Char) : Text.nesting c.toLower = Text.nesting c := by
  have hiff : ∀ d : Char, d.val.toNat < 97 → d.toLower = d → (c.toLower = d ↔ c = d) :=
    fun d hd hself => ⟨eq_of_toLower_eq hd, fun h => by rw [h, hself]⟩
  simp only [Text.nesting, hiff '(' (by decide) rfl, hiff ')' (by decide) rfl]

theorem net_lower (u : Text) : net Text.nesting (Text.lower u) = net Text.nesting u := by
  induction u with
  | nil => rfl
  | cons c u ih =>
    show net Text.nesting (c.toLower :: Text.lower u) = _
    rw [net_cons, net_cons, nesting_toLower, ih]

theorem net_of_readAll (h : readAll t = .ok ts) : net Text.nesting t = net Token.nesting ts := by
  replace h := lexed_of_readAll h
  induction h with
  | nil => rfl
  | blank hb _ ih => rw [net_cons, nesting_of_isBlank hb, zero_add, ih]
  | token hw htext _ _ ih =>
    rw [net_append, net_cons, ih, ← net_lower, ← htext, net_text_of_wellFormed hw]

theorem balanced_of_readAll (h : readAll t = .ok ts) (hts : Balanced Token.nesting ts) :
    Balanced Text.nesting t where
  settled := (net_of_readAll h).trans hts.settled
  suffix v hv := by
    induction v with
    | nil => exact le_refl _
    | cons c v ih =>
      have hle := ih ((List.suffix_cons c v).trans hv)
      by_cases hc : c = '('
      · -- an opening parenthesis is a token of its own, so a part of the tokens begins with it
        subst hc
        obtain ⟨u, rfl⟩ := hv
        obtain ⟨xs, ys, -, hys, rfl⟩ := exists_of_readAll_append (.cons rfl u v) h
        rw [net_of_readAll hys]
        exact hts.suffix ys (List.suffix_append xs ys)
      · have hneg : Text.nesting c ≤ 0 := by
          rw [Text.nesting, if_neg hc]
          split <;> decide
        rw [net_cons]
        omega

end DeskCalculator
