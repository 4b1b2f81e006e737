import DeskCalculator.Proofs.Cut
import DeskCalculator.Proofs.Evaluation

/-!
# The operator before the last entry

The base of a percentage is found by three scans: for the last entry, for the operator before
it and for the operand before that. After an operator and a number they find the number, the
operator and an expression. In any expression with a last entry the operator that is found is
one outside parentheses. Two operands are joined there, unless it is a plus or a minus with a
symbol, or nothing, before it but for blanks: after a blank the scan takes any minus for a
subtraction.
-/

set_option autoImplicit false

namespace DeskCalculator

namespace Text

theorem takeBytes_zero (t : Text) : takeBytes 0 t = [] := by
  cases t <;> rfl

theorem takeBytes_append (t u : Text) : takeBytes (size t) (t ++ u) = t := by
  induction t with
  | nil => exact takeBytes_zero u
  | cons c t ih =>
    have hpos := c.utf8Size_pos
    have hne : c.utf8Size + size t ≠ 0 := by omega
    rw [List.cons_append, size, takeBytes, if_neg hne, Nat.add_sub_cancel_left, ih]

end Text

namespace Entry

variable {t left right m : Text} {c : Char}

theorem operatorBefore?_append (t u : Text) :
    operatorBefore? (t ++ u) t.size = (lastOperator? t).map Text.size := by
  rw [operatorBefore?, Text.takeBytes_append]

theorem operandBefore?_append (t u : Text) : operandBefore? (t ++ u) t.size = lastOperand? t := by
  rw [operandBefore?, Text.takeBytes_append]

theorem Cut.append (h : Cut t left c right) (hm : net Text.nesting m = 0) :
    Cut (t ++ m) left c (right ++ m) where
  eq := by simp [h.eq]
  separates := h.separates
  outside := by rw [net_append, h.outside, hm, add_zero]

/-! ### After an operator and a number -/

open Token

theorem balanced_of_validate (h : Expr.validate t = .ok ()) : Balanced Text.nesting t := by
  obtain ⟨ts, a, hts, hd⟩ := Expr.validate_eq_ok_iff.mp h
  exact balanced_of_readAll hts (balancedAt_of_derives hd)

theorem not_opensSign_of_validate (h : Expr.validate t = .ok ()) :
    opensSign t.reverse = false := by
  obtain ⟨ts, a, hts, hd⟩ := Expr.validate_eq_ok_iff.mp h
  refine Bool.eq_false_iff.mpr fun hs => ?_
  exact absurd rfl ((awaits_of_opensSign hs hts).ne (wellJoined_of_derives hd))

theorem exists_lastOperand_of_validate (h : Expr.validate t = .ok ()) :
    ∃ operand, lastOperand? t = some operand ∧ operand <:+ t ∧
      Expr.validate operand = .ok () := by
  obtain ⟨ts, a, hts, hd⟩ := Expr.validate_eq_ok_iff.mp h
  have hne := (trimRight_eq_nil_iff hts).not.mpr (wellJoined_of_derives hd).ne_nil
  rw [← readAll_trimRight] at hts
  obtain ⟨operand, blanks, hoperand, hsplit, hblanks, hlast⟩ :=
    exists_of_trimRight_ne_nil (balanced_of_validate h) hne
  obtain ⟨us, b, hus, hb⟩ := hlast.exists_derives hts hd
  refine ⟨operand ++ blanks, hoperand, ?_, ?_⟩
  · rw [hsplit]
    exact List.suffix_append_self_iff.mpr hlast.suffix
  · exact Expr.validate_eq_ok_iff.mpr ⟨us, b, by rw [readAll_append_blanks hblanks, hus], hb⟩

theorem bounds_after_operator {g n : Text} (hc : c ∈ operators) (hn : IsDigits n) (hne : n ≠ []) :
    Bounds (g ++ [c]) n [] where
  ne_nil := hne
  isEntry := fun d hd => by simp [isEntryCharacter, Char.isAlphanum, hn d hd]
  longest := by
    intro d hd
    obtain rfl : c = d := by simpa using hd
    have hall : ∀ d ∈ operators, isEntryCharacter d = false := by
      simp [operators, isEntryCharacter]
    exact hall c hc
  isSpace := fun _ h => nomatch h

/-- After an expression, an operator and a number the three scans find the number, the operator
and an expression before it. -/
theorem scans_after_operator {g n : Text} (hg : Expr.validate g = .ok ()) (hc : c ∈ operators)
    (hn : IsDigits n) (hne : n ≠ []) :
    (∃ e, last? (g ++ c :: n) = some e ∧ e.entry = n ∧ e.start = Text.size (g ++ [c]) ∧
      e.stop = Text.size (g ++ [c]) + Text.size n ∧
      operatorBefore? (g ++ c :: n) e.start = some g.size) ∧
    ∃ operand, operandBefore? (g ++ c :: n) g.size = some operand ∧ operand <:+ g ∧
      Expr.validate operand = .ok () := by
  have hopens := not_opensSign_of_validate hg
  have hsplit : g ++ c :: n = (g ++ [c]) ++ n := by simp
  constructor
  · have hsign : ¬EndsInSign (g ++ [c]) := by
      rintro ⟨before, heq, hs⟩
      obtain ⟨rfl, -⟩ := List.append_inj' heq rfl
      rw [hopens] at hs
      cases hs
    have hlast := (bounds_after_operator hc hn hne).last?_of_not_endsInSign hsign
    rw [List.append_nil, ← hsplit] at hlast
    refine ⟨_, hlast, rfl, rfl, rfl, ?_⟩
    obtain ⟨_, -, -, -, hnesting⟩ := exists_isOperator_of_mem hc
    have hbalanced : Balanced Text.nesting (g ++ [c]) :=
      (balanced_of_validate hg).append (Balanced.nil.cons hnesting)
    have hcut : LastCut (g ++ [c]) g c [] :=
      { eq := rfl
        separates := by simpa [Entry.separates, hopens] using hc
        outside := rfl
        last := fun _ => Nat.zero_le _ }
    have hfound := (lastOperator?_eq_some_iff hbalanced).mpr ⟨c, [], hcut⟩
    rw [hsplit]
    show operatorBefore? ((g ++ [c]) ++ n) (Text.size (g ++ [c])) = some g.size
    rw [operatorBefore?_append, hfound]
    rfl
  · rw [operandBefore?_append]
    exact exists_lastOperand_of_validate hg

theorem scans_after_operator_spaced :
    Expr.validate "sin(30)-2* -3 ".toList = .ok () ∧ '/' ∈ operators ∧ IsDigits ['5', '0'] ∧
      (['5', '0'] : Text) ≠ [] ∧
      (∃ e, last? ("sin(30)-2* -3 ".toList ++ '/' :: ['5', '0']) = some e ∧
        e.entry = ['5', '0'] ∧ e.start = Text.size ("sin(30)-2* -3 ".toList ++ ['/']) ∧
        e.stop = Text.size ("sin(30)-2* -3 ".toList ++ ['/']) + Text.size ['5', '0'] ∧
        operatorBefore? ("sin(30)-2* -3 ".toList ++ '/' :: ['5', '0']) e.start =
          some (Text.size "sin(30)-2* -3 ".toList)) ∧
      ∃ operand, operandBefore? ("sin(30)-2* -3 ".toList ++ '/' :: ['5', '0'])
        (Text.size "sin(30)-2* -3 ".toList) = some operand ∧
        operand <:+ "sin(30)-2* -3 ".toList ∧ Expr.validate operand = .ok () := by
  have hg : Expr.validate "sin(30)-2* -3 ".toList = .ok () := by cbv
  have hc : '/' ∈ operators := by decide
  have hn : IsDigits ['5', '0'] := by simp [IsDigits]
  have hne : (['5', '0'] : Text) ≠ [] := by decide
  exact ⟨hg, hc, hn, hne, scans_after_operator hg hc hn hne⟩

/-! ### Before any last entry -/

def signOpeners : List Token := [.plus, .minus, .times, .slash, .caret, .opening, .percent]

theorem trimRight_cases (t : Text) :
    t.trimRight = [] ∨ ∃ u c, t.trimRight = u ++ [c] ∧ Text.isBlank c = false := by
  rcases List.eq_nil_or_concat' t.trimRight with hnil | ⟨u, c, hu⟩
  · exact .inl hnil
  · refine .inr ⟨u, c, hu, not_of_getLast?_dropWhile Text.isBlank t.reverse c ?_⟩
    rw [← Text.trimRight, hu]
    simp

theorem mem_beforeSign_iff {x : Token} (hw : x.WellFormed)
    (hx : x.text.getLast? = some c.toLower) : c ∈ beforeSign ↔ x ∈ signOpeners := by
  by_cases hl : x.isLexeme = true
  · have hc := isLexemeCharacter_of_isLexeme hw hl _ (List.mem_of_getLast? hx)
    have hcharacter : ∀ d ∈ beforeSign, isLexemeCharacter d.toLower = false := by
      have hall : (beforeSign.all fun d => !isLexemeCharacter d.toLower) = true := rfl
      simpa using hall
    have htoken : ∀ y ∈ signOpeners, y.isLexeme = false := by simp [signOpeners, isLexeme]
    refine iff_of_false (fun hmem => ?_) fun hmem => ?_
    · rw [hcharacter c hmem] at hc
      cases hc
    · rw [htoken x hmem] at hl
      cases hl
  · cases x with
    | number _ | name _ | constant _ => exact absurd rfl hl
    | plus | minus | times | slash | percent | caret | bang | opening | closing | comma =>
      obtain rfl := eq_of_toLower_eq (by decide) (Option.some.inj hx).symm
      decide

theorem opensSign_trimRight_iff {xs : List Token} (h : readAll t = .ok xs) :
    opensSign t.trimRight.reverse = true ↔ ∀ x ∈ xs.getLast?, x ∈ signOpeners := by
  rw [← readAll_trimRight] at h
  rcases trimRight_cases t with hnil | ⟨u, c, hu, hc⟩
  · rw [hnil, readAll] at h
    cases h
    rw [hnil]
    exact iff_of_true rfl fun x hx => absurd hx (Option.not_mem_none x)
  · rw [hu] at h ⊢
    obtain ⟨ys, x, rfl, hx⟩ := exists_concat_of_readAll h hc
    have hopens : opensSign (u ++ [c]).reverse = true ↔ c ∈ beforeSign := by
      rw [List.reverse_append]
      exact List.contains_iff_mem
    rw [hopens, mem_beforeSign_iff (wellFormed_of_readAll h x (by simp)).1 hx]
    simp

/-- The character `c` after the text `left` is an operator with that role in the expression,
outside parentheses. -/
def ConsumedAfter (t left : Text) (c : Char) (role : Role) : Prop :=
  ∃ right xs ys token a, t = left ++ c :: right ∧ readAll left = .ok xs ∧
    ofSymbol? c = some token ∧ readAll right = .ok ys ∧ Expr.read t = .ok a ∧
    Consumes role .sum xs token ys a

variable {role : Role} {e : Entry} {o : ℕ}

theorem ConsumedAfter.opensSign_iff (h : ConsumedAfter t left c role) :
    opensSign left.trimRight.reverse = true ↔ ∃ op, role = .signs op := by
  obtain ⟨right, xs, ys, token, a, -, hxs, -, -, -, hrole⟩ := h
  rw [opensSign_trimRight_iff hxs]
  cases role with
  | joins op =>
    refine iff_of_false (fun hs => ?_) (by simp)
    have hawaits : Awaits xs := fun x hx => by
      have hall : ∀ y ∈ signOpeners, y.closesOperand = false := by
        simp [signOpeners, closesOperand]
      exact hall x (hs x hx)
    exact hawaits.ne (hrole.wellJoined_of_joins (by simp)) rfl
  | signs op =>
    refine iff_of_true (fun x hx => ?_) ⟨op, rfl⟩
    obtain ⟨op, rfl⟩ := hrole.isOperator_of_signs x hx
    cases op <;> simp [signOpeners, BinaryOp.token]

theorem ConsumedAfter.role_eq (h : ConsumedAfter t left c role) :
    (c = '*' → role = .joins .mul) ∧ (c = '/' → role = .joins .div) ∧
      (c = '-' → role =
        if opensSign left.trimRight.reverse = true then .signs .minus else .joins .sub) ∧
      (c = '+' → opensSign left.trimRight.reverse = false → role = .joins .add) := by
  have hiff := h.opensSign_iff
  obtain ⟨right, xs, ys, token, a, -, -, hc, -, -, hrole⟩ := h
  have htoken := hrole.token_eq
  refine ⟨?_, ?_, ?_, ?_⟩
  · rintro rfl
    obtain rfl : token = .times := (Option.some.inj hc).symm
    cases role with
    | joins op => exact congrArg Role.joins (@BinaryOp.token_injective op .mul htoken.symm)
    | signs op => cases op <;> cases htoken
  · rintro rfl
    obtain rfl : token = .slash := (Option.some.inj hc).symm
    cases role with
    | joins op => exact congrArg Role.joins (@BinaryOp.token_injective op .div htoken.symm)
    | signs op => cases op <;> cases htoken
  · rintro rfl
    obtain rfl : token = .minus := (Option.some.inj hc).symm
    cases role with
    | joins op =>
      rw [if_neg (by simp [hiff])]
      exact congrArg Role.joins (@BinaryOp.token_injective op .sub htoken.symm)
    | signs op =>
      rw [if_pos (by simp [hiff])]
      exact congrArg Role.signs (@SignOp.token_injective op .minus htoken.symm)
  · rintro rfl hopens
    obtain rfl : token = .plus := (Option.some.inj hc).symm
    cases role with
    | joins op => exact congrArg Role.joins (@BinaryOp.token_injective op .add htoken.symm)
    | signs op => exact absurd (hiff.mpr ⟨op, rfl⟩) (by simp [hopens])

theorem Bounds.net_eq_zero {before word after : Text} (h : Bounds before word after) :
    net Text.nesting (word ++ after) = 0 := by
  refine DeskCalculator.net_eq_zero fun d hd => ?_
  rcases List.mem_append.mp hd with hd | hd
  · exact nesting_of_isLexemeCharacter (isLexemeCharacter_of_isEntryCharacter (h.isEntry d hd))
  · exact nesting_of_isBlank (isBlank_of_bounds h d hd)

theorem split_of_last? (h : last? t = some e) :
    ∃ m, t = e.before ++ m ∧ net Text.nesting m = 0 := by
  have hsplit := last?_eq_some_iff.mp h
  cases hsplit with
  | unsigned hb _ => exact ⟨_, List.append_assoc _ _ _, hb.net_eq_zero⟩
  | signed hb _ => exact ⟨_, List.append_assoc _ _ _, by simpa [Text.nesting] using hb.net_eq_zero⟩

/-- The operator that is found before the last entry of an expression is one outside parentheses.
It is no minus that opens the text or stands right after a symbol. It joins if it is `*` or `/`,
and it adds or subtracts if it is `+` or `-`, except where that follows a symbol or nothing but for
blanks. -/
theorem operatorBefore?_consumed (h : Expr.validate t = .ok ()) (he : last? t = some e)
    (ho : operatorBefore? t e.start = some o) :
    ∃ left c role, Text.size left = o ∧ c ∈ operators ∧
      (c = '-' → opensSign left.reverse = false) ∧ ConsumedAfter t left c role ∧
      (c = '*' → role = .joins .mul) ∧ (c = '/' → role = .joins .div) ∧
      (c = '-' → role =
        if opensSign left.trimRight.reverse = true then .signs .minus else .joins .sub) ∧
      (c = '+' → opensSign left.trimRight.reverse = false → role = .joins .add) := by
  obtain ⟨m, rfl, hm⟩ := split_of_last? he
  rw [start, operatorBefore?_append] at ho
  obtain ⟨left, hleft, hsize⟩ := Option.map_eq_some_iff.mp ho
  have hbalanced := (balanced_of_validate h).of_append hm
  obtain ⟨c, right, hcut⟩ := (lastOperator?_eq_some_iff hbalanced).mp hleft
  have hcut' := hcut.toCut.append hm
  obtain ⟨ts, a, hts, hd⟩ := Expr.validate_eq_ok_iff.mp h
  obtain ⟨xs, token, ys, role, hxs, hys, hsymbol, -, hrole⟩ := hcut'.consumes hts hd
  have hconsumed : ConsumedAfter (e.before ++ m) left c role :=
    ⟨_, xs, ys, token, a, hcut'.eq, hxs, hsymbol, hys, Expr.read_of_derives hts hd, hrole⟩
  exact ⟨left, c, role, hsize, hcut.mem_operators, hcut.not_opensSign, hconsumed,
    hconsumed.role_eq⟩

theorem operatorBefore?_consumed_minus :
    Expr.validate "8 -3".toList = .ok () ∧
      last? "8 -3".toList = some ⟨"8 -".toList, "3".toList, []⟩ ∧
      operatorBefore? "8 -3".toList (start ⟨"8 -".toList, "3".toList, []⟩) = some 2 ∧
      ∃ left c role, Text.size left = 2 ∧ c ∈ operators ∧
        (c = '-' → opensSign left.reverse = false) ∧ ConsumedAfter "8 -3".toList left c role ∧
        (c = '*' → role = .joins .mul) ∧ (c = '/' → role = .joins .div) ∧
        (c = '-' → role =
          if opensSign left.trimRight.reverse = true then .signs .minus else .joins .sub) ∧
        (c = '+' → opensSign left.trimRight.reverse = false → role = .joins .add) := by
  have h : Expr.validate "8 -3".toList = .ok () := by cbv
  have he : last? "8 -3".toList = some ⟨"8 -".toList, "3".toList, []⟩ := by decide
  have ho : operatorBefore? "8 -3".toList (start ⟨"8 -".toList, "3".toList, []⟩) = some 2 := by
    decide
  exact ⟨h, he, ho, operatorBefore?_consumed h he ho⟩

/-- A prefix minus after a blank is taken for a subtraction. -/
theorem operatorBefore?_not_joined :
    ¬∀ (t : Text) (e : Entry) (o : ℕ), Expr.validate t = .ok () → last? t = some e →
      operatorBefore? t e.start = some o →
      ∃ left c op, Text.size left = o ∧ ConsumedAfter t left c (.joins op) := by
  intro h
  obtain ⟨left, c, op, hsize, hjoins⟩ := h "2* -3".toList ⟨"2* -".toList, "3".toList, []⟩ 3
    (by cbv) (by decide) (by decide)
  have hiff := hjoins.opensSign_iff
  obtain ⟨right, _, _, _, _, heq, -⟩ := hjoins
  have hleft : left = "2* ".toList := by
    rw [← Text.takeBytes_append left (c :: right), hsize, ← heq]
    decide
  rw [hleft] at hiff
  obtain ⟨_, hrole⟩ := hiff.mp (by decide)
  cases hrole

end Entry

end DeskCalculator
