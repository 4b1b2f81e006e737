import DeskCalculator.Expression.Evaluation
import DeskCalculator.Proofs.Grammar
import DeskCalculator.Proofs.Token

/-!
# The written form of a tree

A tree that was read from tokens holds only their numbers and names, and no call
in it lacks an argument. Its written form is scanned back as the tokens of that
form, which derive the tree again, so reading undoes writing.
-/

set_option autoImplicit false

namespace DeskCalculator

namespace Expr

/-- The numbers and names of the tree are among `ts`, and every call has an argument. -/
inductive BuiltFrom (ts : List Token) : Expr → Prop
  | literal {text : Text} : .number text ∈ ts → BuiltFrom ts (.literal text)
  | constant (c : Constant) : BuiltFrom ts (.constant c)
  | signed (op : SignOp) {x : Expr} : BuiltFrom ts x → BuiltFrom ts (.signed op x)
  | binary (op : BinaryOp) {a b : Expr} : BuiltFrom ts a → BuiltFrom ts b →
      BuiltFrom ts (.binary op a b)
  | call {name : Text} {args : List Expr} : .name name ∈ ts ∨ name = factorialName →
      args ≠ [] → (∀ a ∈ args, BuiltFrom ts a) → BuiltFrom ts (.call name args)

theorem BuiltFrom.mono {ts us : List Token} {a : Expr} (h : BuiltFrom ts a) (hs : ts ⊆ us) :
    BuiltFrom us a := by
  induction h with
  | literal ht => exact .literal (hs ht)
  | constant c => exact .constant c
  | signed op _ ih => exact .signed op ih
  | binary op _ _ iha ihb => exact .binary op iha ihb
  | call hn hne _ ih => exact .call (hn.imp_left fun h => hs h) hne ih

theorem builtFrom_of_derives {level : Level} {xs : List Token} {a : Expr}
    (h : Derives level xs a) : BuiltFrom xs a := by
  induction h with
  | sum _ _ _ iha ihb | product _ _ _ iha ihb =>
    exact .binary _ (iha.mono (by simp)) (ihb.mono (by simp))
  | power _ _ iha ihb => exact .binary _ (iha.mono (by simp)) (ihb.mono (by simp))
  | signed op _ ih => exact .signed op (ih.mono (by simp))
  | suffixed _ ih =>
    refine .call (Or.inr rfl) (by simp) fun a ha => ?_
    obtain rfl := List.mem_singleton.mp ha
    exact ih.mono (by simp)
  | number text => exact .literal (by simp)
  | constant c => exact .constant c
  | group _ ih | call _ ih => exact ih.mono (by simp)
  | firstArgument name _ ih =>
    refine .call (Or.inl (by simp)) (by simp) fun a ha => ?_
    obtain rfl := List.mem_singleton.mp ha
    exact ih.mono (by simp)
  | nextArgument _ _ ihc iha =>
    cases ihc with
    | call hn _ hargs =>
      refine .call (hn.imp_left (by simp +contextual)) (by simp) fun b hb => ?_
      rcases List.mem_append.mp hb with hb | hb
      · exact (hargs b hb).mono (by simp)
      · obtain rfl := List.mem_singleton.mp hb
        exact iha.mono (by simp)
  | sumOfProduct _ ih | productOfPower _ ih | powerOfSigned _ ih | signedOfSuffixed _ ih
  | suffixedOfAtom _ ih => exact ih

/-! ### The tokens of the written form -/

mutual

def tokens : Expr → List Token
  | literal text => [.number text]
  | constant c => [.constant c]
  | signed op x => [.opening] ++ [op.token] ++ x.tokens ++ [.closing]
  | binary op a b => [.opening] ++ a.tokens ++ [op.token] ++ b.tokens ++ [.closing]
  | call name args => [.name name] ++ [.opening] ++ argTokens args ++ [.closing]

def argTokens : List Expr → List Token
  | [] => []
  | [a] => a.tokens
  | a :: rest => a.tokens ++ [.comma] ++ argTokens rest

end

theorem derives_of_atom {level : Level} (hl : level ≠ .openCall) {xs : List Token} {a : Expr}
    (h : Derives .atom xs a) : Derives level xs a := by
  have hsuffixed := Derives.suffixedOfAtom h
  have hpower := Derives.powerOfSigned (.signedOfSuffixed hsuffixed)
  cases level with
  | sum => exact .sumOfProduct (.productOfPower hpower)
  | product => exact .productOfPower hpower
  | power => exact hpower
  | signed => exact .signedOfSuffixed hsuffixed
  | suffixed => exact hsuffixed
  | atom => exact h
  | openCall => exact absurd rfl hl

theorem derives_binary (op : BinaryOp) {xs ys : List Token} {a b : Expr}
    (ha : Derives .atom xs a) (hb : Derives .atom ys b) :
    Derives .sum (xs ++ op.token :: ys) (.binary op a b) := by
  cases hop : op.level with
  | sum => exact .sum hop (derives_of_atom (by simp) ha) (derives_of_atom (by simp) hb)
  | product =>
    exact .sumOfProduct
      (.product hop (derives_of_atom (by simp) ha) (derives_of_atom (by simp) hb))
  | power =>
    obtain rfl : op = .pow := by cases op <;> first | rfl | cases hop
    exact .sumOfProduct (.productOfPower
      (.power (derives_of_atom (by simp) ha) (derives_of_atom (by simp) hb)))
  | signed | suffixed | atom | openCall => cases op <;> cases hop

theorem derives_arguments {name : Text} {args : List Expr} {a : Expr} (rest : List Expr)
    {xs : List Token} (h : ∀ b ∈ a :: rest, Derives .atom b.tokens b)
    (hc : ∀ ys, Derives .sum ys a → Derives .openCall (xs ++ ys) (.call name (args ++ [a]))) :
    Derives .openCall (xs ++ argTokens (a :: rest)) (.call name (args ++ a :: rest)) := by
  have ha := hc a.tokens (derives_of_atom (by simp) (h a (by simp)))
  induction rest generalizing a args xs with
  | nil => exact ha
  | cons b rest ih =>
    have hb : ∀ c ∈ b :: rest, Derives .atom c.tokens c := fun c hm => h c (by simp [hm])
    have hn : ∀ ys, Derives .sum ys b →
        Derives .openCall (xs ++ (a.tokens ++ [.comma]) ++ ys)
          (.call name (args ++ [a] ++ [b])) := by
      intro ys hys
      simpa using Derives.nextArgument ha hys
    have hr := ih hb hn (hn _ (derives_of_atom (by simp) (hb b (by simp))))
    simpa [argTokens] using hr

theorem derives_tokens {ts : List Token} {a : Expr} (h : BuiltFrom ts a) :
    Derives .atom a.tokens a := by
  induction h with
  | literal _ => exact .number _
  | constant c => exact .constant c
  | signed op _ ih =>
    simpa [tokens] using Derives.group (.sumOfProduct (.productOfPower (.powerOfSigned
      (.signed op (derives_of_atom (by simp) ih)))))
  | binary op _ _ iha ihb => simpa [tokens] using Derives.group (derives_binary op iha ihb)
  | @call name args _ hne _ ih =>
    cases args with
    | nil => exact absurd rfl hne
    | cons a rest =>
      have hc : Derives .openCall ([.name name, .opening] ++ argTokens (a :: rest))
          (.call name ([] ++ a :: rest)) :=
        derives_arguments rest ih fun ys hys => .firstArgument name hys
      exact .call hc

/-! ### Scanning the written form -/

/-- Before `rest`, the text `t` is scanned as the tokens `ts`. -/
def Scans (t : Text) (ts : List Token) (rest : Text) : Prop :=
  Token.readAll (t ++ rest) = (Token.readAll rest).map (ts ++ ·)

theorem Scans.append {t u rest : Text} {ts us : List Token} (ht : Scans t ts (u ++ rest))
    (hu : Scans u us rest) : Scans (t ++ u) (ts ++ us) rest := by
  unfold Scans at *
  rw [List.append_assoc, ht, hu]
  cases Token.readAll rest with
  | error e => rfl
  | ok tail => simp [Except.map]

theorem Scans.token {token : Token} {rest : Text} (hw : token.WellFormed)
    (hr : token.EndsBefore rest) : Scans token.text [token] rest :=
  Token.readAll_text_append hw hr

def Delimits (rest : Text) : Prop :=
  ∀ c ∈ rest.head?, c.isDigit = false ∧ c ≠ '.' ∧ Token.isWordCharacter c = false

theorem Delimits.endsBefore {rest : Text} (h : Delimits rest) (token : Token) :
    token.EndsBefore rest := by
  cases token with
  | number _ => exact fun c hc => ⟨(h c hc).1, (h c hc).2.1⟩
  | name _ | constant _ => exact fun c hc => (h c hc).2.2
  | _ => trivial

theorem delimits_nil : Delimits [] := by simp [Delimits]

theorem delimits_cons {c : Char} (h : c ∈ ['+', '-', '*', '/', '%', '^', ')', ','])
    (rest : Text) : Delimits (c :: rest) := by
  intro d hd
  obtain rfl : c = d := by simpa using hd
  have hall : ['+', '-', '*', '/', '%', '^', ')', ','].all (fun c =>
      decide (c.isDigit = false ∧ c ≠ '.' ∧ Token.isWordCharacter c = false)) = true := by decide
  exact of_decide_eq_true (List.all_eq_true.mp hall c h)

theorem delimits_operator (op : BinaryOp) (rest : Text) : Delimits (op.token.text ++ rest) := by
  cases op <;> exact delimits_cons (by decide) rest

theorem scans_symbol {c : Char} {token : Token} (h : Token.ofSymbol? c = some token)
    (rest : Text) : Scans [c] [token] rest :=
  Token.readAll_symbol h rest

theorem scans_operator (op : BinaryOp) (rest : Text) : Scans op.token.text [op.token] rest := by
  cases op <;> exact scans_symbol rfl rest

theorem scans_sign (op : SignOp) (rest : Text) : Scans op.token.text [op.token] rest := by
  cases op <;> exact scans_symbol rfl rest

theorem scans_separator (rest : Text) : Scans [',', ' '] [.comma] rest := by
  have hc : Scans [','] [.comma] (' ' :: rest) := scans_symbol rfl _
  unfold Scans at *
  rw [Token.readAll_blank rfl] at hc
  exact hc

theorem scans_writeArgs {args : List Expr} (hne : args ≠ [])
    (h : ∀ a ∈ args, ∀ rest, Delimits rest → Scans a.write a.tokens rest) {rest : Text}
    (hr : Delimits rest) : Scans (writeArgs args) (argTokens args) rest := by
  induction args with
  | nil => exact absurd rfl hne
  | cons a args ih =>
    cases args with
    | nil => exact h a (by simp) rest hr
    | cons b args =>
      have ha := h a (by simp) ([',', ' '] ++ (writeArgs (b :: args) ++ rest))
        (delimits_cons (by decide) _)
      exact (ha.append (scans_separator _)).append
        (ih (by simp) fun c hc => h c (by simp [hc]))

theorem isName_factorialName : IsName factorialName where
  ne_nil := by decide
  isWord := List.all_eq_true.mp rfl
  isLower := by decide
  notConstant := by decide

theorem scans_write {ts : List Token} (hts : ∀ token ∈ ts, token.WellFormed) {a : Expr}
    (h : BuiltFrom ts a) : ∀ rest, Delimits rest → Scans a.write a.tokens rest := by
  induction h with
  | literal ht =>
    intro rest hr
    exact Scans.token (hts _ ht) (hr.endsBefore _)
  | constant c =>
    intro rest hr
    exact @Scans.token (.constant c) rest trivial (hr.endsBefore _)
  | signed op _ ih =>
    intro rest _
    have hclose : Delimits ([')'] ++ rest) := delimits_cons (by decide) rest
    exact (((scans_symbol rfl _).append (scans_sign op _)).append (ih _ hclose)).append
      (scans_symbol rfl rest)
  | binary op _ _ iha ihb =>
    intro rest _
    have hclose : Delimits ([')'] ++ rest) := delimits_cons (by decide) rest
    exact ((((scans_symbol rfl _).append (iha _ (delimits_operator op _))).append
      (scans_operator op _)).append (ihb _ hclose)).append (scans_symbol rfl rest)
  | @call name args hn hne _ ih =>
    intro rest _
    have hname : IsName name := by
      rcases hn with hn | rfl
      · exact hts _ hn
      · exact isName_factorialName
    have hclose : Delimits ([')'] ++ rest) := delimits_cons (by decide) rest
    have hopen : Token.EndsBefore (.name name) (['('] ++ (writeArgs args ++ ([')'] ++ rest))) := by
      intro c hc
      obtain rfl : '(' = c := by simpa using hc
      rfl
    exact (((@Scans.token (.name name) _ hname hopen).append (scans_symbol rfl _)).append
      (scans_writeArgs hne ih hclose)).append (scans_symbol rfl rest)

theorem read_trim (t : Text) : read t.trim = read t := by rw [read, read, Token.readAll_trim]

theorem builtFrom_of_read {t : Text} {a : Expr} (h : read t = .ok a) :
    ∃ ts, (∀ token ∈ ts, token.WellFormed ∧ token.text.length ≤ t.length + 1) ∧ BuiltFrom ts a := by
  obtain ⟨ts, hts, ha⟩ := bind_eq_ok.mp h
  by_cases hnil : ts = []
  · subst hnil
    cases ha
    refine ⟨[.number ['0']], ?_, .literal (by simp)⟩
    intro token ht
    obtain rfl := List.mem_singleton.mp ht
    exact ⟨IsNumeral.integer (by simp [IsDigits]) (by simp), by simp [Token.text]⟩
  · refine ⟨ts, fun token ht => ?_, builtFrom_of_derives (derives_of_ofTokens ha hnil)⟩
    have hw := Token.wellFormed_of_readAll hts token ht
    exact ⟨hw.1, Nat.le_succ_of_le hw.2⟩

theorem read_write_of_builtFrom {ts : List Token} (hts : ∀ token ∈ ts, token.WellFormed)
    {a : Expr} (h : BuiltFrom ts a) : read a.write = .ok a := by
  have hscan := scans_write hts h [] delimits_nil
  unfold Scans at hscan
  rw [List.append_nil, Token.readAll] at hscan
  rw [read, hscan]
  show ofTokens (a.tokens ++ []) = .ok a
  rw [List.append_nil]
  exact ofTokens_of_derives (derives_of_atom (by simp) (derives_tokens h))

end Expr

end DeskCalculator
