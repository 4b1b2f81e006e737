import DeskCalculator.Expression.Token
import DeskCalculator.Proofs.Outcome
import Mathlib

/-!
# Tokens of a text

A token that the scan finds is well formed, and the text of a well-formed token
is scanned back as that token wherever nothing follows that would lengthen it.
A text is scanned in parts wherever a cut goes through no number and no word, and
blanks at its ends change nothing.
-/

set_option autoImplicit false

namespace DeskCalculator

/-! ### Characters -/

theorem not_blank_of_isDigit {c : Char} (h : c.isDigit = true) : Text.isBlank c = false := by
  simp [Char.isDigit, Text.isBlank, UInt32.le_iff_toNat_le] at *
  omega

theorem not_word_of_isDigit {c : Char} (h : c.isDigit = true) :
    Token.isWordCharacter c = false := by
  have hc : c ≠ '_' := by rintro rfl; cases h
  simp [Char.isDigit, Token.isWordCharacter, Char.isAlpha, Char.isUpper, Char.isLower, hc,
    UInt32.le_iff_toNat_le] at *
  omega

theorem not_blank_of_isWord {c : Char} (h : Token.isWordCharacter c = true) :
    Text.isBlank c = false := by
  rcases (by simpa [Token.isWordCharacter] using h : c.isAlpha = true ∨ c = '_') with h | rfl
  · simp [Char.isAlpha, Char.isUpper, Char.isLower, Text.isBlank, UInt32.le_iff_toNat_le] at *
    omega
  · rfl

theorem toNat_val_toLower (c : Char) : c.toLower.val.toNat =
    if 65 ≤ c.val.toNat ∧ c.val.toNat ≤ 90 then c.val.toNat + 32 else c.val.toNat := by
  unfold Char.toLower
  simp only [ge_iff_le, UInt32.le_iff_toNat_le]
  split
  · next h =>
    simp at h
    simp [h]
    omega
  · next h =>
    simp at h
    simp
    omega

theorem toLower_toLower (c : Char) : c.toLower.toLower = c.toLower := by
  apply Char.ext
  apply UInt32.toNat_inj.mp
  rw [toNat_val_toLower, toNat_val_toLower]
  by_cases h : 65 ≤ c.val.toNat ∧ c.val.toNat ≤ 90
  · rw [if_pos h, if_neg (by omega)]
  · rw [if_neg h, if_neg h]

theorem toLower_of_isDigit {c : Char} (h : c.isDigit = true) : c.toLower = c := by
  apply Char.ext
  apply UInt32.toNat_inj.mp
  rw [toNat_val_toLower, if_neg]
  simp only [Char.isDigit, Bool.and_eq_true, decide_eq_true_eq, ge_iff_le,
    UInt32.le_iff_toNat_le] at h
  have h9 : ('9' : Char).val.toNat = 57 := rfl
  omega

theorem isWord_toLower {c : Char} (h : Token.isWordCharacter c = true) :
    Token.isWordCharacter c.toLower = true := by
  rcases (by simpa [Token.isWordCharacter] using h : c.isAlpha = true ∨ c = '_') with h | rfl
  · have hc := toNat_val_toLower c
    simp only [Token.isWordCharacter, Char.isAlpha, Char.isUpper, Char.isLower, Bool.or_eq_true,
      decide_eq_true_eq, ge_iff_le, UInt32.le_iff_toNat_le] at *
    left
    split at hc <;> simp at * <;> omega
  · rfl

theorem lower_lower (t : Text) : Text.lower (Text.lower t) = Text.lower t := by
  show (t.map Char.toLower).map Char.toLower = t.map Char.toLower
  rw [List.map_map]
  exact List.map_congr_left fun c _ => toLower_toLower c

section
variable {p : Char → Bool} {rest : Text} (h : ∀ c ∈ rest.head?, p c = false)
include h

theorem takeWhile_eq_nil : rest.takeWhile p = [] := by
  cases rest with
  | nil => rfl
  | cons c rest => simp [h c rfl]

theorem dropWhile_eq_self : rest.dropWhile p = rest := by
  cases rest with
  | nil => rfl
  | cons c rest => simp [h c rfl]

variable {t : Text} (ht : ∀ c ∈ t, p c = true)
include ht

theorem takeWhile_append_eq : (t ++ rest).takeWhile p = t := by
  rw [List.takeWhile_append_of_pos ht, takeWhile_eq_nil h, List.append_nil]

theorem dropWhile_append_eq : (t ++ rest).dropWhile p = rest := by
  rw [List.dropWhile_append_of_pos ht, dropWhile_eq_self h]

end

theorem not_of_getLast?_dropWhile (p : Char → Bool) (r : Text) :
    ∀ c ∈ (r.dropWhile p).reverse.getLast?, p c = false := by
  intro c hc
  rw [List.getLast?_reverse] at hc
  have hd := List.head?_dropWhile_not p r
  rw [Option.mem_def.mp hc] at hd
  simpa using hd

/-! ### Numerals and names -/

def IsDigits (t : Text) : Prop := ∀ c ∈ t, c.isDigit = true

inductive IsNumeral : Text → Prop
  | integer {whole : Text} : IsDigits whole → whole ≠ [] → IsNumeral whole
  | pointed {whole fraction : Text} : IsDigits whole → IsDigits fraction →
      whole ++ fraction ≠ [] → IsNumeral (whole ++ '.' :: fraction)

theorem IsNumeral.ne_nil {t : Text} (h : IsNumeral t) : t ≠ [] := by
  cases h with
  | integer _ hne => exact hne
  | pointed _ _ _ => simp

theorem IsNumeral.isDigit_or_point {t : Text} (h : IsNumeral t) :
    ∀ c ∈ t, c.isDigit = true ∨ c = '.' := by
  cases h with
  | integer hw _ => exact fun c hc => Or.inl (hw c hc)
  | pointed hw hf _ =>
    intro c hc
    rcases List.mem_append.mp hc with hc | hc
    · exact Or.inl (hw c hc)
    · rcases List.mem_cons.mp hc with rfl | hc
      · exact Or.inr rfl
      · exact Or.inl (hf c hc)

structure IsName (t : Text) : Prop where
  ne_nil : t ≠ []
  isWord : ∀ c ∈ t, Token.isWordCharacter c = true
  isLower : Text.lower t = t
  notConstant : Constant.ofName? t = none

namespace Token

theorem numberLexeme_append_afterNumber (t : Text) : numberLexeme t ++ afterNumber t = t := by
  have h : t.takeWhile Char.isDigit ++ t.dropWhile Char.isDigit = t :=
    List.takeWhile_append_dropWhile
  unfold numberLexeme afterNumber
  split
  · next rest heq =>
    rw [heq] at h
    simpa using h
  · rwa [List.append_nil]

section
variable {t rest : Text} (ht : IsNumeral t) (hr : ∀ c ∈ rest.head?, c.isDigit = false ∧ c ≠ '.')
include ht hr

theorem numberLexeme_append : numberLexeme (t ++ rest) = t := by
  have hd : ∀ c ∈ rest.head?, c.isDigit = false := fun c hc => (hr c hc).1
  cases ht with
  | integer hw _ =>
    rw [numberLexeme, takeWhile_append_eq hd hw, dropWhile_append_eq hd hw]
    cases rest with
    | nil => exact List.append_nil t
    | cons c rest =>
      split
      · next heq => exact absurd (List.cons.inj heq).1 (hr c rfl).2
      · exact List.append_nil t
  | @pointed whole fraction hw hf _ =>
    have hp : ∀ c ∈ ('.' :: (fraction ++ rest)).head?, c.isDigit = false := by simp
    rw [List.append_assoc, List.cons_append, numberLexeme, takeWhile_append_eq hp hw,
      dropWhile_append_eq hp hw]
    simp only [takeWhile_append_eq hd hf]

theorem afterNumber_append : afterNumber (t ++ rest) = rest := by
  have h := numberLexeme_append_afterNumber (t ++ rest)
  rw [numberLexeme_append ht hr] at h
  exact List.append_cancel_left h

end

theorem opensNumber_of_isNumeral {c : Char} {t : Text} (h : IsNumeral (c :: t)) (rest : Text) :
    opensNumber c (t ++ rest) = true := by
  generalize hs : c :: t = s at h
  cases h with
  | integer hw _ =>
    have hc := hw c (by simp [← hs])
    simp [opensNumber, hc]
  | @pointed whole fraction hw hf hne =>
    cases whole with
    | nil =>
      obtain ⟨rfl, rfl⟩ := List.cons.inj hs
      cases t with
      | nil => exact absurd rfl hne
      | cons d t => simp [opensNumber, hf d (by simp)]
    | cons d whole =>
      obtain ⟨rfl, -⟩ := List.cons.inj hs
      simp [opensNumber, hw c (by simp)]

theorem isNumeral_numberLexeme {c : Char} {rest : Text} (h : opensNumber c rest = true) :
    IsNumeral (numberLexeme (c :: rest)) := by
  unfold numberLexeme
  have hw : IsDigits ((c :: rest).takeWhile Char.isDigit) :=
    fun _ => List.mem_takeWhile_imp
  by_cases hc : c.isDigit = true
  · have hne : (c :: rest).takeWhile Char.isDigit ≠ [] := by simp [hc]
    split
    · next rest' _ => exact .pointed hw (fun _ => List.mem_takeWhile_imp) (by simp [hne])
    · rw [List.append_nil]
      exact .integer hw hne
  · obtain ⟨rfl, hd⟩ : c = '.' ∧ rest.head?.any Char.isDigit = true := by
      simpa [opensNumber, hc] using h
    cases rest with
    | nil => simp at hd
    | cons d rest =>
      have hd : d.isDigit = true := by simpa using hd
      exact .pointed hw (fun _ => List.mem_takeWhile_imp) (by simp [hd])

/-! ### One step of the scan -/

theorem readAll_blank {c : Char} {rest : Text} (h : Text.isBlank c = true) :
    readAll (c :: rest) = readAll rest := by
  rw [readAll, if_pos h]

theorem not_blank_of_opensNumber {c : Char} {rest : Text} (h : opensNumber c rest = true) :
    Text.isBlank c = false := by
  by_cases hc : c.isDigit = true
  · exact not_blank_of_isDigit hc
  · obtain ⟨rfl, -⟩ : c = '.' ∧ rest.head?.any Char.isDigit = true := by
      simpa [opensNumber, hc] using h
    rfl

theorem readAll_number {c : Char} {rest : Text} (h : opensNumber c rest = true) :
    readAll (c :: rest) =
      (readAll (afterNumber (c :: rest))).map (number (numberLexeme (c :: rest)) :: ·) := by
  rw [readAll, if_neg (by simp [not_blank_of_opensNumber h]), dif_pos h]

theorem not_opensNumber_of_isWord {c : Char} (h : isWordCharacter c = true) (rest : Text) :
    opensNumber c rest = false := by
  have hd : c.isDigit = false := by
    cases hd : c.isDigit with
    | false => rfl
    | true => rw [not_word_of_isDigit hd] at h; cases h
  have hp : c ≠ '.' := by rintro rfl; cases h
  simp [opensNumber, hd, hp]

theorem readAll_word {c : Char} {rest : Text} (h : isWordCharacter c = true) :
    readAll (c :: rest) = (readAll (rest.dropWhile isWordCharacter)).map
      (ofWord (Text.lower (c :: rest.takeWhile isWordCharacter)) :: ·) := by
  rw [readAll, if_neg (by simp [not_blank_of_isWord h]),
    dif_neg (by simp [not_opensNumber_of_isWord h]), if_pos h]

theorem readAll_symbol {c : Char} {token : Token} (h : ofSymbol? c = some token) (rest : Text) :
    readAll (c :: rest) = (readAll rest).map (token :: ·) := by
  unfold ofSymbol? at h
  split at h <;> cases h <;> (rw [readAll]; rfl)

/-! ### What the scan finds -/

def WellFormed : Token → Prop
  | number t => IsNumeral t
  | name t => IsName t
  | _ => True

theorem wellFormed_ofSymbol {c : Char} {token : Token} (h : ofSymbol? c = some token) :
    token.WellFormed ∧ token.text = [c] := by
  unfold ofSymbol? at h
  split at h <;> cases h <;> exact ⟨trivial, rfl⟩

theorem text_ofWord (word : Text) : (ofWord word).text = word := by
  unfold ofWord
  split
  · next c hc =>
    unfold Constant.ofName? at hc
    split at hc
    · next h => cases hc; exact h.symm
    · split at hc
      · next h => cases hc; exact h.symm
      · cases hc
  · rfl

theorem wellFormed_ofWord {word : Text} (hne : word ≠ [])
    (hw : ∀ c ∈ word, isWordCharacter c = true) (hl : Text.lower word = word) :
    (ofWord word).WellFormed := by
  unfold ofWord
  split
  · trivial
  · next hc => exact ⟨hne, hw, hl, hc⟩

theorem isWord_lower {word : Text} (h : ∀ c ∈ word, isWordCharacter c = true) :
    ∀ c ∈ Text.lower word, isWordCharacter c = true := by
  intro c hc
  obtain ⟨d, hd, rfl⟩ := List.mem_map.mp hc
  exact isWord_toLower (h d hd)

theorem not_blank_of_isNumeral {t : Text} (h : IsNumeral t) : ∀ c ∈ t, Text.isBlank c = false := by
  intro c hc
  rcases h.isDigit_or_point c hc with hd | rfl
  · exact not_blank_of_isDigit hd
  · rfl

theorem lower_of_isNumeral {t : Text} (h : IsNumeral t) : Text.lower t = t := by
  have hlow : ∀ c ∈ t, c.toLower = id c := by
    intro c hc
    rcases h.isDigit_or_point c hc with hd | rfl
    · exact toLower_of_isDigit hd
    · rfl
  exact (List.map_congr_left hlow).trans (List.map_id t)

theorem not_blank_of_ofSymbol {c : Char} {token : Token} (h : ofSymbol? c = some token) :
    Text.isBlank c = false ∧ c.toLower = c := by
  unfold ofSymbol? at h
  split at h <;> first | cases h; done | exact ⟨rfl, rfl⟩

/-- A text and its tokens from the front: blanks are left out, and every other piece of the text
is the text of a token, up to the case of its letters. -/
inductive Lexed : Text → List Token → Prop
  | nil : Lexed [] []
  | blank {c : Char} {t : Text} {ts : List Token} : Text.isBlank c = true → Lexed t ts →
      Lexed (c :: t) ts
  | token {token : Token} {piece t : Text} {ts : List Token} : token.WellFormed →
      token.text = Text.lower piece → (∀ c ∈ piece, Text.isBlank c = false) → Lexed t ts →
      Lexed (piece ++ t) (token :: ts)

theorem lexed_of_readAll {t : Text} {ts : List Token} (h : readAll t = .ok ts) : Lexed t ts := by
  induction t using readAll.induct generalizing ts with
  | case1 =>
    rw [readAll] at h
    cases h
    exact .nil
  | case2 c rest hb ih =>
    rw [readAll_blank hb] at h
    exact .blank hb (ih h)
  | case3 c rest _ hn ih =>
    rw [readAll_number hn] at h
    obtain ⟨tail, htail, rfl⟩ := map_eq_ok.mp h
    have hnum := isNumeral_numberLexeme hn
    have hl : Lexed (numberLexeme (c :: rest) ++ afterNumber (c :: rest))
        (number (numberLexeme (c :: rest)) :: tail) :=
      .token hnum (lower_of_isNumeral hnum).symm (not_blank_of_isNumeral hnum) (ih htail)
    rwa [numberLexeme_append_afterNumber] at hl
  | case4 c rest _ _ hw ih =>
    rw [readAll_word hw] at h
    obtain ⟨tail, htail, rfl⟩ := map_eq_ok.mp h
    have hword : ∀ d ∈ c :: rest.takeWhile isWordCharacter, isWordCharacter d = true :=
      List.forall_mem_cons.mpr ⟨hw, fun d hd => List.mem_takeWhile_imp hd⟩
    have hsplit : c :: rest =
        (c :: rest.takeWhile isWordCharacter) ++ rest.dropWhile isWordCharacter := by
      rw [List.cons_append, List.takeWhile_append_dropWhile]
    rw [hsplit]
    exact .token (wellFormed_ofWord (by simp [Text.lower]) (isWord_lower hword) (lower_lower _))
      (text_ofWord _) (fun d hd => not_blank_of_isWord (hword d hd)) (ih htail)
  | case5 c rest _ _ _ token hs ih =>
    rw [readAll_symbol hs] at h
    obtain ⟨tail, htail, rfl⟩ := map_eq_ok.mp h
    obtain ⟨hwell, htext⟩ := wellFormed_ofSymbol hs
    obtain ⟨hblank, hlow⟩ := not_blank_of_ofSymbol hs
    rw [← List.singleton_append]
    exact .token hwell (by rw [htext, Text.lower, List.map_singleton, hlow])
      (by simpa using hblank) (ih htail)
  | case6 c rest hb hn hw hs =>
    rw [readAll, if_neg hb, dif_neg hn, if_neg hw] at h
    simp [hs] at h

theorem wellFormed_of_readAll {t : Text} {ts : List Token} (h : readAll t = .ok ts) :
    ∀ token ∈ ts, token.WellFormed ∧ token.text.length ≤ t.length := by
  replace h := lexed_of_readAll h
  induction h with
  | nil => simp
  | blank _ _ ih =>
    intro token ht
    exact ⟨(ih token ht).1, Nat.le_succ_of_le (ih token ht).2⟩
  | @token first piece t ts hwell htext _ _ ih =>
    intro token ht
    rw [List.length_append]
    rcases List.mem_cons.mp ht with rfl | ht
    · refine ⟨hwell, ?_⟩
      rw [htext, Text.lower, List.length_map]
      exact Nat.le_add_right _ _
    · exact ⟨(ih token ht).1, Nat.le_add_left_of_le (ih token ht).2⟩

/-! ### Nothing but blanks is lost -/

def spelled (t : Text) : Text := Text.lower (t.filter fun c => !Text.isBlank c)

theorem spelled_blank {c : Char} (h : Text.isBlank c = true) (t : Text) :
    spelled (c :: t) = spelled t := by
  simp [spelled, h]

theorem spelled_append {word : Text} (h : ∀ c ∈ word, Text.isBlank c = false) (t : Text) :
    spelled (word ++ t) = Text.lower word ++ spelled t := by
  have hw : word.filter (fun c => !Text.isBlank c) = word :=
    List.filter_eq_self.mpr fun c hc => by rw [h c hc, Bool.not_false]
  rw [spelled, spelled, List.filter_append, hw]
  exact List.map_append

theorem spelled_eq_lower {word : Text} (h : ∀ c ∈ word, Text.isBlank c = false) :
    spelled word = Text.lower word := by
  simpa [spelled, Text.lower] using spelled_append h []

theorem flatMap_text_of_readAll {t : Text} {ts : List Token} (h : readAll t = .ok ts) :
    ts.flatMap text = spelled t := by
  replace h := lexed_of_readAll h
  induction h with
  | nil => rfl
  | blank hb _ ih => rw [spelled_blank hb, ih]
  | token _ htext hblank _ ih => rw [List.flatMap_cons, ih, htext, spelled_append hblank]

theorem isBlank_of_readAll_nil {t : Text} (h : readAll t = .ok []) :
    ∀ c ∈ t, Text.isBlank c = true := by
  have hspelled : Text.lower (t.filter fun c => !Text.isBlank c) = [] :=
    (flatMap_text_of_readAll h).symm
  simpa [Text.lower, List.filter_eq_nil_iff] using hspelled

theorem WellFormed.text_ne_nil {token : Token} (h : token.WellFormed) : token.text ≠ [] := by
  cases token with
  | number t => exact IsNumeral.ne_nil h
  | name t => exact IsName.ne_nil h
  | constant c => cases c <;> exact List.cons_ne_nil _ _
  | plus | minus | times | slash | percent | caret | bang | opening | closing | comma =>
    exact List.cons_ne_nil _ _

theorem exists_concat_of_readAll {c : Char} {t : Text} {ts : List Token}
    (h : readAll (t ++ [c]) = .ok ts) (hc : Text.isBlank c = false) :
    ∃ xs x, ts = xs ++ [x] ∧ x.text.getLast? = some c.toLower := by
  rcases List.eq_nil_or_concat' ts with rfl | ⟨xs, x, rfl⟩
  · have hblank := isBlank_of_readAll_nil h c (by simp)
    rw [hc] at hblank
    cases hblank
  · have hne := (wellFormed_of_readAll h x (by simp)).1.text_ne_nil
    have htext := congrArg List.getLast? (flatMap_text_of_readAll h)
    rw [List.flatMap_append, List.flatMap_singleton, List.getLast?_append_of_ne_nil _ hne] at htext
    refine ⟨xs, x, rfl, htext.trans ?_⟩
    simp [spelled, Text.lower, hc]

/-! ### The text of a token is scanned back -/

def EndsBefore (token : Token) (rest : Text) : Prop :=
  match token with
  | number _ => ∀ c ∈ rest.head?, c.isDigit = false ∧ c ≠ '.'
  | name _ | constant _ => ∀ c ∈ rest.head?, isWordCharacter c = false
  | _ => True

theorem readAll_word_append {word rest : Text} (hne : word ≠ [])
    (hw : ∀ c ∈ word, isWordCharacter c = true) (hl : Text.lower word = word)
    (hr : ∀ c ∈ rest.head?, isWordCharacter c = false) :
    readAll (word ++ rest) = (readAll rest).map (ofWord word :: ·) := by
  cases word with
  | nil => exact absurd rfl hne
  | cons c word =>
    have hword : ∀ d ∈ word, isWordCharacter d = true := fun d hd => hw d (by simp [hd])
    rw [List.cons_append, readAll_word (hw c (by simp)), takeWhile_append_eq hr hword,
      dropWhile_append_eq hr hword, hl]

theorem readAll_text_append {token : Token} {rest : Text} (hw : token.WellFormed)
    (hr : token.EndsBefore rest) :
    readAll (token.text ++ rest) = (readAll rest).map (token :: ·) := by
  cases token with
  | number t =>
    cases t with
    | nil => exact absurd rfl (IsNumeral.ne_nil hw)
    | cons c t =>
      show readAll (c :: (t ++ rest)) = _
      rw [readAll_number (opensNumber_of_isNumeral hw rest)]
      rw [← List.cons_append, numberLexeme_append hw hr, afterNumber_append hw hr]
  | name t =>
    have hof : ofWord t = name t := by rw [ofWord, hw.notConstant]
    rw [← hof]
    rw [text_ofWord]
    exact readAll_word_append hw.ne_nil hw.isWord hw.isLower hr
  | constant c =>
    have hof : ofWord c.name = constant c := by cases c <;> rfl
    rw [← hof, text_ofWord]
    exact readAll_word_append (by cases c <;> simp [Constant.name])
      (List.all_eq_true.mp (by cases c <;> rfl)) (by cases c <;> rfl) hr
  | plus | minus | times | slash | percent | caret | bang | opening | closing | comma =>
    exact readAll_symbol rfl rest

/-! ### A text cut in two -/

def isLexemeCharacter (c : Char) : Bool := c.isDigit || c = '.' || isWordCharacter c

theorem isLexemeCharacter_of_isDigit {c : Char} (h : c.isDigit = true) :
    isLexemeCharacter c = true := by simp [isLexemeCharacter, h]

theorem isLexemeCharacter_of_isWord {c : Char} (h : isWordCharacter c = true) :
    isLexemeCharacter c = true := by simp [isLexemeCharacter, h]

/-- No number and no word reaches from the end of `u` into `v`. -/
def Separate (u v : Text) : Prop :=
  ∀ c ∈ u.getLast?, ∀ d ∈ v.head?, isLexemeCharacter c = true → isLexemeCharacter d = false

namespace Separate

variable {u v w : Text}

theorem suffix (h : Separate u v) (hs : w <:+ u) : Separate w v := by
  obtain ⟨t, rfl⟩ := hs
  intro c hc
  refine h c ?_
  rw [List.getLast?_append]
  simp [Option.mem_def.mp hc]

theorem tail {c : Char} (h : Separate (c :: u) v) : Separate u v :=
  h.suffix (List.suffix_cons c u)

theorem cons {c : Char} (hc : isLexemeCharacter c = false) (u v : Text) : Separate u (c :: v) := by
  intro _ _ d hd _
  obtain rfl : c = d := by simpa using hd
  exact hc

theorem not_lexeme (h : Separate u v) (hne : u ≠ []) (hu : ∀ c ∈ u, isLexemeCharacter c = true) :
    ∀ d ∈ v.head?, isLexemeCharacter d = false := fun d hd =>
  h _ (List.getLast?_eq_some_getLast hne) d hd (hu _ (List.getLast_mem hne))

variable {p : Char → Bool} (hp : ∀ c, p c = true → isLexemeCharacter c = true)
include hp

theorem dropWhile_append {c : Char} (h : Separate (c :: u) v)
    (hc : isLexemeCharacter c = true) : (u ++ v).dropWhile p = u.dropWhile p ++ v := by
  rw [List.dropWhile_append]
  split
  · next hnil =>
    have hu := List.dropWhile_eq_nil_iff.mp (List.isEmpty_iff.mp hnil)
    have hv := h.not_lexeme (by simp) (by simpa [hc] using fun d hd => hp d (hu d hd))
    rw [List.isEmpty_iff.mp hnil, List.nil_append]
    refine dropWhile_eq_self fun d hd => Bool.eq_false_iff.mpr fun hpd => ?_
    exact absurd (hp d hpd) (by simp [hv d hd])
  · rfl

theorem takeWhile_append {c : Char} (h : Separate (c :: u) v)
    (hc : isLexemeCharacter c = true) : (u ++ v).takeWhile p = u.takeWhile p := by
  have hd := h.dropWhile_append hp hc
  have ha : (u ++ v).takeWhile p ++ (u ++ v).dropWhile p = u.takeWhile p ++ u.dropWhile p ++ v := by
    rw [List.takeWhile_append_dropWhile, List.takeWhile_append_dropWhile]
  rw [hd, ← List.append_assoc] at ha
  exact List.append_cancel_right (List.append_cancel_right ha)

end Separate

theorem isLexemeCharacter_of_opensNumber {c : Char} {rest : Text}
    (h : opensNumber c rest = true) : isLexemeCharacter c = true := by
  by_cases hc : c.isDigit = true
  · exact isLexemeCharacter_of_isDigit hc
  · obtain ⟨rfl, -⟩ : c = '.' ∧ rest.head?.any Char.isDigit = true := by
      simpa [opensNumber, hc] using h
    rfl

theorem opensNumber_append {c : Char} {u v : Text} (h : Separate (c :: u) v) :
    opensNumber c (u ++ v) = opensNumber c u := by
  cases u with
  | cons d u => rfl
  | nil =>
    by_cases hc : c = '.'
    · subst hc
      have hv := h.not_lexeme (by simp) (by simp [isLexemeCharacter])
      cases v with
      | nil => rfl
      | cons d v =>
        have hd : d.isDigit = false := by
          have := hv d rfl
          simp only [isLexemeCharacter, Bool.or_eq_false_iff] at this
          exact this.1.1
        simp [opensNumber, hd]
    · simp [opensNumber, hc]

theorem afterNumber_append_of_separate {c : Char} {u v : Text} (h : Separate (c :: u) v)
    (hc : opensNumber c u = true) : afterNumber (c :: u ++ v) = afterNumber (c :: u) ++ v := by
  have hdigit : ∀ d : Char, d.isDigit = true → isLexemeCharacter d = true :=
    fun d => isLexemeCharacter_of_isDigit
  have hl := isLexemeCharacter_of_opensNumber hc
  have hdrop := h.dropWhile_append hdigit hl
  by_cases hcd : c.isDigit = true
  · have htail : afterNumber (c :: u ++ v) = afterNumber (u ++ v) := by simp [afterNumber, hcd]
    have htail' : afterNumber (c :: u) = afterNumber u := by simp [afterNumber, hcd]
    rw [htail, htail', afterNumber, afterNumber, hdrop]
    cases hu : u.dropWhile Char.isDigit with
    | nil =>
      have hall := List.dropWhile_eq_nil_iff.mp hu
      have hv := h.not_lexeme (by simp) (by simpa [hl] using fun d hd => hdigit d (hall d hd))
      cases v with
      | nil => rfl
      | cons d v =>
        have hp : d ≠ '.' := by
          rintro rfl
          exact absurd (hv '.' rfl) (by decide)
        simp [hp]
    | cons d r =>
      by_cases hp : d = '.'
      · subst hp
        have hs : Separate ('.' :: r) v :=
          h.suffix ((hu ▸ List.dropWhile_suffix _).trans (List.suffix_cons c u))
        exact hs.dropWhile_append hdigit rfl
      · simp [hp]
  · obtain ⟨rfl, -⟩ : c = '.' ∧ u.head?.any Char.isDigit = true := by
      simpa [opensNumber, hcd] using hc
    exact hdrop

theorem numberLexeme_append_of_separate {c : Char} {u v : Text} (h : Separate (c :: u) v)
    (hc : opensNumber c u = true) : numberLexeme (c :: u ++ v) = numberLexeme (c :: u) := by
  have ha := numberLexeme_append_afterNumber (c :: u ++ v)
  rw [afterNumber_append_of_separate h hc, ← List.append_assoc] at ha
  exact List.append_cancel_right
    ((List.append_cancel_right ha).trans (numberLexeme_append_afterNumber (c :: u)).symm)

/-- A text is scanned in two parts if no number and no word lies across the cut. -/
theorem readAll_append {u v : Text} (h : Separate u v) :
    readAll (u ++ v) = (readAll u).bind fun ts => (readAll v).map (ts ++ ·) := by
  have hnil : ∀ x : Except CalcError (List Token), x.map ([] ++ ·) = x := by
    intro x
    cases x <;> rfl
  have hcons : ∀ (token : Token) (x : Except CalcError (List Token)),
      (x.bind fun ts => (readAll v).map (ts ++ ·)).map (token :: ·) =
        (x.map (token :: ·)).bind fun ts => (readAll v).map (ts ++ ·) := by
    intro token x
    cases x with
    | error e => rfl
    | ok ts => cases readAll v <;> rfl
  induction u using readAll.induct with
  | case1 =>
    rw [List.nil_append, readAll]
    exact (hnil _).symm
  | case2 c u hb ih => rw [List.cons_append, readAll_blank hb, readAll_blank hb, ih h.tail]
  | case3 c u _ hn ih =>
    have hn' : opensNumber c (u ++ v) = true := by rw [opensNumber_append h, hn]
    have hs : afterNumber (c :: u) <:+ c :: u := ⟨_, numberLexeme_append_afterNumber (c :: u)⟩
    rw [List.cons_append, readAll_number hn', readAll_number hn, ← List.cons_append,
      numberLexeme_append_of_separate h hn, afterNumber_append_of_separate h hn,
      ih (h.suffix hs), hcons]
  | case4 c u _ _ hw ih =>
    have hword : ∀ d, isWordCharacter d = true → isLexemeCharacter d = true :=
      fun d => isLexemeCharacter_of_isWord
    have hs : Separate (u.dropWhile isWordCharacter) v := h.tail.suffix (List.dropWhile_suffix _)
    rw [List.cons_append, readAll_word hw, readAll_word hw, h.takeWhile_append hword (hword c hw),
      h.dropWhile_append hword (hword c hw), ih hs, hcons]
  | case5 c u _ _ _ token hs ih =>
    rw [List.cons_append, readAll_symbol hs, readAll_symbol hs, ih h.tail, hcons]
  | case6 c u hb hn hw hs =>
    have hn' : ¬ opensNumber c (u ++ v) = true := by rwa [opensNumber_append h]
    rw [List.cons_append, readAll, if_neg hb, dif_neg hn', if_neg hw, readAll, if_neg hb,
      dif_neg hn, if_neg hw]
    simp only [hs]
    rfl

section
variable {u v : Text} {ts us : List Token} (h : Separate u v)
include h

theorem readAll_append_ok (hu : readAll u = .ok ts) (hv : readAll v = .ok us) :
    readAll (u ++ v) = .ok (ts ++ us) := by
  rw [readAll_append h, hu, hv]
  rfl

theorem exists_of_readAll_append (ha : readAll (u ++ v) = .ok ts) :
    ∃ xs ys, readAll u = .ok xs ∧ readAll v = .ok ys ∧ ts = xs ++ ys := by
  rw [readAll_append h] at ha
  obtain ⟨xs, hxs, ha⟩ := bind_eq_ok.mp ha
  obtain ⟨ys, hys, rfl⟩ := map_eq_ok.mp ha
  exact ⟨xs, ys, hxs, hys, rfl⟩

end

theorem exists_piece_of_readAll {t : Text} {token : Token} {ts : List Token}
    (h : readAll t = .ok (token :: ts)) : ∃ front piece rest, t = front ++ piece ++ rest ∧
      token.text = Text.lower piece ∧ readAll rest = .ok ts := by
  induction t using readAll.induct with
  | case1 =>
    rw [readAll] at h
    cases h
  | case2 c rest hb ih =>
    rw [readAll_blank hb] at h
    obtain ⟨front, piece, rest, rfl, htext, hrest⟩ := ih h
    exact ⟨c :: front, piece, rest, rfl, htext, hrest⟩
  | case3 c rest _ hn _ =>
    rw [readAll_number hn] at h
    obtain ⟨tail, htail, heq⟩ := map_eq_ok.mp h
    obtain ⟨rfl, rfl⟩ := List.cons.inj heq
    exact ⟨[], _, _, (numberLexeme_append_afterNumber _).symm,
      (lower_of_isNumeral (isNumeral_numberLexeme hn)).symm, htail⟩
  | case4 c rest _ _ hw _ =>
    rw [readAll_word hw] at h
    obtain ⟨tail, htail, heq⟩ := map_eq_ok.mp h
    obtain ⟨rfl, rfl⟩ := List.cons.inj heq
    refine ⟨[], c :: rest.takeWhile isWordCharacter, _, ?_, text_ofWord _, htail⟩
    rw [List.nil_append, List.cons_append, List.takeWhile_append_dropWhile]
  | case5 c rest _ _ _ symbol hs _ =>
    rw [readAll_symbol hs] at h
    obtain ⟨tail, htail, heq⟩ := map_eq_ok.mp h
    obtain ⟨rfl, rfl⟩ := List.cons.inj heq
    refine ⟨[], [c], rest, rfl, ?_, htail⟩
    rw [(wellFormed_ofSymbol hs).2, Text.lower, List.map_singleton, (not_blank_of_ofSymbol hs).2]
  | case6 c rest hb hn hw hs =>
    rw [readAll, if_neg hb, dif_neg hn, if_neg hw] at h
    simp [hs] at h

/-! ### Blanks around a text -/

theorem not_isLexemeCharacter_of_blank {b : Char} (hb : Text.isBlank b = true) :
    isLexemeCharacter b = false := by
  refine Bool.eq_false_iff.mpr fun hl => ?_
  rcases (by simpa [isLexemeCharacter, or_assoc] using hl :
    b.isDigit = true ∨ b = '.' ∨ isWordCharacter b = true) with h | rfl | h
  · rw [not_blank_of_isDigit h] at hb
    cases hb
  · cases hb
  · rw [not_blank_of_isWord h] at hb
    cases hb

theorem readAll_append_blank {b : Char} (hb : Text.isBlank b = true) (t : Text) :
    readAll (t ++ [b]) = readAll t := by
  rw [readAll_append (.cons (not_isLexemeCharacter_of_blank hb) t []), readAll_blank hb, readAll]
  cases readAll t with
  | error e => rfl
  | ok ts => simp [Except.bind, Except.map]

theorem readAll_append_blanks {u : Text} (h : ∀ c ∈ u, Text.isBlank c = true) (t : Text) :
    readAll (t ++ u) = readAll t := by
  induction u generalizing t with
  | nil => rw [List.append_nil]
  | cons c u ih =>
    have hu : ∀ d ∈ u, Text.isBlank d = true := fun d hd => h d (List.mem_cons_of_mem c hd)
    rw [List.append_cons, ih hu, readAll_append_blank (h c List.mem_cons_self)]

theorem readAll_trimLeft (t : Text) : readAll t.trimLeft = readAll t := by
  induction t with
  | nil => rfl
  | cons c t ih =>
    by_cases hc : Text.isBlank c = true
    · rw [readAll_blank hc, ← ih]
      simp [Text.trimLeft, hc]
    · simp [Text.trimLeft, hc]

theorem readAll_trimRight (t : Text) : readAll t.trimRight = readAll t := by
  -- by induction from the end of the text
  suffices h : ∀ r : Text, readAll (r.dropWhile Text.isBlank).reverse = readAll r.reverse by
    simpa [Text.trimRight] using h t.reverse
  intro r
  induction r with
  | nil => rfl
  | cons c r ih =>
    by_cases hc : Text.isBlank c = true
    · rw [List.reverse_cons, readAll_append_blank hc, ← ih]
      simp [hc]
    · simp [hc]

theorem readAll_trim (t : Text) : readAll t.trim = readAll t := by
  rw [Text.trim, readAll_trimRight, readAll_trimLeft]

end Token

end DeskCalculator
