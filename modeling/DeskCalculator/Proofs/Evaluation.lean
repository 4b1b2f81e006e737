import DeskCalculator.Proofs.Numeral
import DeskCalculator.Proofs.Tree

/-!
# From a text to its value

A tree that was read has a value, or its evaluation fails in the computation: every
literal in it is a numeral and no call lacks an argument. So the failures of reading
are found before the evaluation, and the written form of a tree has the value of the
text it was read from.
-/

set_option autoImplicit false

namespace DeskCalculator

/-! ### Failures of a computation -/

def Computes {α : Type} (x : Except CalcError α) : Prop :=
  ∀ e, x = .error e → e.kind = .domain ∨ e.kind = .range

section
variable {α β : Type}

theorem computes_ok (a : α) : Computes (.ok a : Except CalcError α) := fun _ h => nomatch h

theorem computes_error {e : CalcError} (h : e.kind = .domain ∨ e.kind = .range) :
    Computes (.error e : Except CalcError α) := by
  intro e' he
  cases he
  exact h

theorem computes_orOutOfRange (x : Option α) : Computes (orOutOfRange x) := by
  cases x with
  | none => exact computes_error (Or.inr rfl)
  | some a => exact computes_ok a

theorem Computes.map {x : Except CalcError α} (h : Computes x) (f : α → β) :
    Computes (x.map f) := fun e he => h e (map_eq_error.mp he)

theorem Computes.bind {x : Except CalcError α} {f : α → Except CalcError β} (h : Computes x)
    (hf : ∀ a, x = .ok a → Computes (f a)) : Computes (x.bind f) := by
  intro e he
  rcases bind_eq_error.mp he with he | ⟨a, ha, he⟩
  · exact h e he
  · exact hf a ha e he

theorem computes_ite {p : Prop} [Decidable p] {e : CalcError} {x : Except CalcError α}
    (he : e.kind = .domain ∨ e.kind = .range) (hx : Computes x) :
    Computes (if p then .error e else x) := by
  split
  · exact computes_error he
  · exact hx

end

theorem BinaryOp.computes_apply (op : BinaryOp) (x y : Decimal) (c : Context) :
    Computes (op.apply x y c) := by
  cases op with
  | add | sub | mul | pow => exact computes_orOutOfRange _
  | div | mod => exact computes_ite (Or.inl rfl) (computes_orOutOfRange _)

theorem Decimal.computes_factorial (n : Decimal) (c : Context) : Computes (n.factorial c) :=
  computes_ite (Or.inl rfl) (computes_ite (Or.inr rfl) (computes_orOutOfRange _))

theorem Decimal.computes_rootOfOrder (x n : Decimal) (c : Context) :
    Computes (x.rootOfOrder n c) := by
  refine computes_ite (Or.inl rfl) (computes_ite (Or.inl rfl) ?_)
  split
  · split <;> exact computes_orOutOfRange _
  · exact computes_orOutOfRange _

namespace NamedFunction

theorem computes_second (f : NamedFunction) (others : List Decimal) :
    Computes (f.second others) := by
  cases others with
  | nil => exact computes_error (Or.inl rfl)
  | cons y others => exact computes_ok y

theorem computes_compute (f : NamedFunction) (x : Decimal) (others : List Decimal)
    (unit : AngleUnit) (c : Context) : Computes (f.compute x others unit c) := by
  cases f with
  | sin | cos | tan | asin | acos | atan | exp | tenpow | cbrt | square | cube =>
    exact computes_orOutOfRange _
  | ln | log | inv | sqrt => exact computes_ite (Or.inl rfl) (computes_orOutOfRange _)
  | abs => exact computes_ok _
  | pow => exact (computes_second _ _).bind fun y _ => computes_orOutOfRange _
  | root => exact (computes_second _ _).bind fun n _ => x.computes_rootOfOrder n c
  | fact => exact x.computes_factorial c

theorem computes_apply (f : NamedFunction) (x : Decimal) (others : List Decimal)
    (unit : AngleUnit) (c : Context) : Computes (f.apply x others unit c) :=
  (f.computes_compute x others unit _).map _

end NamedFunction

/-! ### Trees -/

namespace Expr

mutual

def callsApplied : Expr → Bool
  | literal _ | constant _ => true
  | signed _ x => x.callsApplied
  | binary _ a b => a.callsApplied && b.callsApplied
  | call _ args => !args.isEmpty && allApplied args

def allApplied : List Expr → Bool
  | [] => true
  | a :: rest => a.callsApplied && allApplied rest

end

theorem allApplied_eq_true {args : List Expr} :
    allApplied args = true ↔ ∀ a ∈ args, a.callsApplied = true := by
  induction args with
  | nil => simp [allApplied]
  | cons a rest ih => simp [allApplied, ih]

theorem BuiltFrom.callsApplied {ts : List Token} {a : Expr} (h : BuiltFrom ts a) :
    a.callsApplied = true := by
  induction h with
  | literal _ | constant _ => rfl
  | signed _ _ ih => exact ih
  | binary _ _ _ iha ihb => exact Bool.and_eq_true_iff.mpr ⟨iha, ihb⟩
  | call _ hne _ ih =>
    exact Bool.and_eq_true_iff.mpr ⟨by simpa using hne, allApplied_eq_true.mpr ih⟩

theorem callsApplied_of_ofTokens {ts : List Token} {a : Expr} (h : ofTokens ts = .ok a) :
    a.callsApplied = true := by
  by_cases hnil : ts = []
  · subst hnil
    cases h
    rfl
  · exact (builtFrom_of_derives (derives_of_ofTokens h hnil)).callsApplied

def Readable (ts : List Token) : Prop :=
  ∀ text, Token.number text ∈ ts → ∃ x, Decimal.read? text = some x

/-! ### Texts -/

theorem readable_of_wellFormed {ts : List Token}
    (h : ∀ token ∈ ts, token.WellFormed ∧ (token.text.length : Int) ≤ Decimal.maxAdjusted) :
    Readable ts := by
  intro text ht
  obtain ⟨hw, hl⟩ := h _ ht
  obtain ⟨x, hx, -⟩ := Decimal.read_of_isNumeral hw hl
  exact ⟨x, hx⟩

theorem readable_of_readAll {t : Text} (hl : (t.length : Int) < Decimal.maxAdjusted)
    {ts : List Token} (h : Token.readAll t = .ok ts) : Readable ts := by
  apply readable_of_wellFormed
  intro token ht
  obtain ⟨hw, hlen⟩ := Token.wellFormed_of_readAll h token ht
  exact ⟨hw, by omega⟩

theorem validate_eq {t : Text} (h : t.trim ≠ []) : validate t = (read t).map fun _ => () := by
  rw [validate, if_neg (by simpa using h), read_trim]

theorem validate_eq_ok_iff {t : Text} : validate t = .ok () ↔
    ∃ ts a, Token.readAll t = .ok ts ∧ Derives .sum ts a := by
  constructor
  · intro h
    have hne : t.trim ≠ [] := by
      intro hnil
      rw [validate, hnil] at h
      cases h
    rw [validate_eq hne] at h
    obtain ⟨a, ha, -⟩ := map_eq_ok.mp h
    obtain ⟨ts, hts, ha⟩ := bind_eq_ok.mp ha
    refine ⟨ts, a, hts, derives_of_ofTokens ha ?_⟩
    rintro rfl
    have hleft : t.trimLeft = [] :=
      List.dropWhile_eq_nil_iff.mpr (Token.isBlank_of_readAll_nil hts)
    exact hne (by rw [Text.trim, hleft]; rfl)
  · rintro ⟨ts, a, hts, hd⟩
    have hne : t.trim ≠ [] := by
      intro hnil
      rw [← Token.readAll_trim, hnil, Token.readAll] at hts
      cases hts
      obtain ⟨_, _, hcons, -⟩ := exists_cons_of_derives hd
      cases hcons
    rw [validate_eq hne, read_of_derives hts hd]
    rfl

end Expr

namespace Preferences

variable (p : Preferences)

theorem evaluate_literal_zero : p.evaluate (.literal ['0']) = .ok Decimal.zero := by
  have hread : Decimal.read? ['0'] = some Decimal.zero := by decide +kernel
  have hlen : Decimal.zero.length ≤ p.context.digits := by
    rw [Decimal.length, show Decimal.zero.mantissa.natAbs = 0 from rfl, Natural.digitCount_zero]
    exact p.context.positive
  rw [evaluate, Expr.eval, hread]
  exact congrArg Except.ok (Decimal.round_of_length_le hlen)

theorem evaluateText_eq (t : Text) : p.evaluateText t = (Expr.read t).bind p.evaluate := by
  by_cases h : t.trim = []
  · have hz : Expr.read t = .ok (.literal ['0']) := by
      rw [← Expr.read_trim, h, Expr.read, Token.readAll]
      rfl
    rw [evaluateText, if_pos (by simp [h]), hz]
    exact (p.evaluate_literal_zero).symm
  · rw [evaluateText, if_neg (by simpa using h), Expr.read_trim]

end Preferences

/-! ### The stages agree -/

namespace Expr

/-- The written form of a tree is read as that tree. It is the form in which the stages of the
text are shown, and it has the value of the text. -/
theorem read_write {t : Text} {a : Expr} (h : read t = .ok a) :
    (∃ ts, Token.readAll a.write = .ok ts ∧ ofTokens ts = .ok a) ∧
      (∃ o, outline t = .ok o ∧ o.tree = a.write) ∧
      ∀ p : Preferences, p.evaluateText a.write = p.evaluateText t := by
  obtain ⟨us, hus, hb⟩ := builtFrom_of_read h
  have hw := read_write_of_builtFrom (fun token ht => (hus token ht).1) hb
  refine ⟨bind_eq_ok.mp hw, ?_, fun p => ?_⟩
  · obtain ⟨ts, hts, ha⟩ := bind_eq_ok.mp h
    rw [← Token.readAll_trim] at hts
    refine ⟨⟨Token.writeAll ts, a.write⟩, ?_, rfl⟩
    simp only [outline, hts, ha, bind, Except.bind]
    rfl
  · rw [p.evaluateText_eq, p.evaluateText_eq, h, hw]

theorem read_write_power :
    read "-2^3! + Pow(PI, .5)".toList = .ok (.binary .add
        (.binary .pow (.signed .minus (.literal ['2'])) (.call factorialName [.literal ['3']]))
        (.call "pow".toList [.constant .pi, .literal ['.', '5']])) ∧
      ∀ p : Preferences, p.evaluateText "(((-2)^fact(3))+pow(pi, .5))".toList =
        p.evaluateText "-2^3! + Pow(PI, .5)".toList := by
  have h : read "-2^3! + Pow(PI, .5)".toList = .ok (.binary .add
      (.binary .pow (.signed .minus (.literal ['2'])) (.call factorialName [.literal ['3']]))
      (.call "pow".toList [.constant .pi, .literal ['.', '5']])) := by cbv
  exact ⟨h, (read_write h).2.2⟩

end Expr

end DeskCalculator
