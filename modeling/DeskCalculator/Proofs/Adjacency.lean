import DeskCalculator.Proofs.Grammar
import Mathlib.Data.List.Chain

/-!
# Neighbours in an expression

Which token can stand right after which in a token list that the grammar derives. After
the end of an operand comes an operator, a suffix, a comma or a closing parenthesis;
after anything else an operand begins, with its signs. So a number or a word never
stands right after another one.
-/

set_option autoImplicit false

namespace DeskCalculator

namespace Token

def closesOperand : Token → Bool
  | number _ | constant _ | bang | closing => true
  | _ => false

def opensOperand : Token → Bool
  | number _ | constant _ | name _ | opening | plus | minus => true
  | _ => false

def continues : Token → Bool
  | number _ | constant _ | name _ | opening => false
  | _ => true

def isLexeme : Token → Bool
  | number _ | constant _ | name _ => true
  | _ => false

/-- Whether `y` can stand right after `x` in an expression. -/
def Adjoins (x y : Token) : Prop :=
  match x with
  | name _ => y = opening
  | x => if x.closesOperand = true then y.continues = true else y.opensOperand = true

theorem Adjoins.before_lexeme {x y : Token} (h : Adjoins x y) (hy : y.isLexeme = true) :
    x.closesOperand = false ∧ x.isLexeme = false := by
  have hc : y.continues = false := by cases y <;> first | rfl | cases hy
  cases x with
  | name text =>
    obtain rfl : y = opening := h
    cases hy
  | number _ | constant _ | bang | closing =>
    have hcontinues : y.continues = true := h
    rw [hc] at hcontinues
    cases hcontinues
  | plus | minus | times | slash | percent | caret | opening | comma => exact ⟨rfl, rfl⟩

end Token

open Token

/-- Neighbours fit, and the whole begins and ends as an operand does. -/
structure WellJoined (xs : List Token) : Prop where
  chain : xs.IsChain Adjoins
  opens : ∃ token ∈ xs.head?, token.opensOperand = true
  closes : ∃ token ∈ xs.getLast?, token.closesOperand = true

namespace WellJoined

variable {xs ys : List Token} {token : Token}

theorem ne_nil (h : WellJoined xs) : xs ≠ [] := by
  rintro rfl
  obtain ⟨_, ht, -⟩ := h.opens
  cases ht

theorem adjoins_of_closes {x y : Token} (hx : x.closesOperand = true) (hy : y.continues = true) :
    Adjoins x y := by
  cases x <;> first | cases hx; done | exact hy

theorem single (ho : token.opensOperand = true) (hc : token.closesOperand = true) :
    WellJoined [token] where
  chain := .singleton _
  opens := ⟨token, rfl, ho⟩
  closes := ⟨token, rfl, hc⟩

theorem cons (h : WellJoined xs) (ho : token.opensOperand = true)
    (ha : ∀ y : Token, y.opensOperand = true → Adjoins token y) : WellJoined (token :: xs) where
  chain := by
    obtain ⟨y, hy, hopens⟩ := h.opens
    refine List.isChain_cons.mpr ⟨fun z hz => ?_, h.chain⟩
    obtain rfl := Option.mem_unique hy hz
    exact ha y hopens
  opens := ⟨token, rfl, ho⟩
  closes := by
    obtain ⟨z, hz, hcloses⟩ := h.closes
    refine ⟨z, ?_, hcloses⟩
    rw [← List.singleton_append, List.getLast?_append, Option.mem_def.mp hz]
    rfl

theorem opened (h : WellJoined xs) : WellJoined (.opening :: xs) := h.cons rfl fun _ h => h

theorem concat (h : WellJoined xs) (hc : token.closesOperand = true)
    (ht : token.continues = true) : WellJoined (xs ++ [token]) where
  chain := by
    refine h.chain.append (.singleton _) fun x hx y hy => ?_
    obtain ⟨z, hz, hcloses⟩ := h.closes
    obtain rfl := Option.mem_unique hx hz
    obtain rfl : token = y := by simpa using hy
    exact adjoins_of_closes hcloses ht
  opens := by
    obtain ⟨y, hy, hopens⟩ := h.opens
    exact ⟨y, by rw [List.head?_append, Option.mem_def.mp hy]; rfl, hopens⟩
  closes := ⟨token, by simp, hc⟩

theorem join (hx : WellJoined xs) (hy : WellJoined ys) (ht : token.continues = true)
    (ha : ∀ y : Token, y.opensOperand = true → Adjoins token y) :
    WellJoined (xs ++ token :: ys) where
  chain := by
    obtain ⟨x, hxl, hcloses⟩ := hx.closes
    obtain ⟨y, hyh, hopens⟩ := hy.opens
    refine hx.chain.append (List.isChain_cons.mpr ⟨fun z hz => ?_, hy.chain⟩) fun z hz w hw => ?_
    · obtain rfl := Option.mem_unique hyh hz
      exact ha y hopens
    · obtain rfl := Option.mem_unique hxl hz
      obtain rfl : token = w := by simpa using hw
      exact adjoins_of_closes hcloses ht
  opens := by
    obtain ⟨y, hyh, hopens⟩ := hx.opens
    exact ⟨y, by rw [List.head?_append, Option.mem_def.mp hyh]; rfl, hopens⟩
  closes := by
    obtain ⟨y, hyl, hcloses⟩ := hy.closes
    refine ⟨y, ?_, hcloses⟩
    rw [List.getLast?_append, ← List.singleton_append, List.getLast?_append, Option.mem_def.mp hyl]
    rfl

theorem called (h : WellJoined xs) (name : Text) : WellJoined (.name name :: .opening :: xs) where
  chain := List.isChain_cons_cons.mpr ⟨rfl, h.opened.chain⟩
  opens := ⟨.name name, rfl, rfl⟩
  closes := by simpa [List.getLast?_cons_cons] using h.opened.closes

theorem before_lexeme (h : WellJoined (xs ++ [token])) (ht : token.isLexeme = true) :
    ∀ x ∈ xs.getLast?, x.closesOperand = false ∧ x.isLexeme = false := fun x hx =>
  Adjoins.before_lexeme ((List.isChain_append.mp h.chain).2.2 x hx token rfl) ht

theorem closesOperand_getLast (h : WellJoined (xs ++ [token])) : token.closesOperand = true := by
  obtain ⟨z, hz, hcloses⟩ := h.closes
  obtain rfl : token = z := by simpa using hz
  exact hcloses

end WellJoined

theorem BinaryOp.continues_token (op : BinaryOp) : op.token.continues = true := by
  cases op <;> rfl

theorem BinaryOp.adjoins_token (op : BinaryOp) (y : Token) (h : y.opensOperand = true) :
    Adjoins op.token y := by
  cases op <;> exact h

/-- Neighbours fit in every token list that the grammar derives. -/
theorem wellJoined_of_derives {level : Level} {xs : List Token} {a : Expr}
    (h : Derives level xs a) : WellJoined xs := by
  induction h with
  | sum _ _ _ iha ihb | product _ _ _ iha ihb =>
    exact iha.join ihb (BinaryOp.continues_token _) (BinaryOp.adjoins_token _)
  | power _ _ iha ihb =>
    exact iha.join ihb (BinaryOp.continues_token .pow) (BinaryOp.adjoins_token .pow)
  | signed op _ ih => exact ih.cons (by cases op <;> rfl) (by cases op <;> exact fun _ h => h)
  | suffixed _ ih | call _ ih => exact ih.concat rfl rfl
  | number _ | constant _ => exact .single rfl rfl
  | group _ ih => exact ih.opened.concat rfl rfl
  | firstArgument name _ ih => exact ih.called name
  | nextArgument _ _ ihc iha => exact ihc.join iha rfl fun _ h => h
  | sumOfProduct _ ih | productOfPower _ ih | powerOfSigned _ ih | signedOfSuffixed _ ih
  | suffixedOfAtom _ ih => exact ih

end DeskCalculator
