import DeskCalculator.Proofs.Token

/-!
# The texts of tokens

The tokens of a text spell it, apart from its blanks and the case of its letters. A number
among them is told by its characters: digits and at most one point, with at least one digit;
so is a name: lower case letters and underscores that do not make up a constant. Written with
single spaces between them, well-formed tokens are scanned back one by one, since a space
lengthens no token.
-/

set_option autoImplicit false

namespace DeskCalculator

/-! ### Numbers and names by their characters -/

theorem count_point_of_isDigits {t : Text} (h : IsDigits t) : t.count '.' = 0 :=
  List.count_eq_zero.mpr fun hmem => absurd (h '.' hmem) (by decide)

theorem exists_isDigit_of_ne_nil {t : Text} (h : IsDigits t) (hne : t ≠ []) :
    ∃ c ∈ t, c.isDigit = true := by
  obtain ⟨c, hc⟩ := List.exists_mem_of_ne_nil t hne
  exact ⟨c, hc, h c hc⟩

theorem isDigits_of_count {t : Text} (hall : ∀ c ∈ t, c.isDigit = true ∨ c = '.')
    (hcount : t.count '.' = 0) : IsDigits t := by
  intro c hc
  rcases hall c hc with hd | rfl
  · exact hd
  · exact absurd hc (List.count_eq_zero.mp hcount)

theorem isNumeral_iff_characters {t : Text} : IsNumeral t ↔
    (∀ c ∈ t, c.isDigit = true ∨ c = '.') ∧ t.count '.' ≤ 1 ∧ ∃ c ∈ t, c.isDigit = true := by
  constructor
  · intro h
    refine ⟨h.isDigit_or_point, ?_⟩
    cases h with
    | integer hw hne =>
      exact ⟨by rw [count_point_of_isDigits hw]; exact Nat.zero_le 1,
        exists_isDigit_of_ne_nil hw hne⟩
    | @pointed whole fraction hw hf hne =>
      constructor
      · rw [List.count_append, List.count_cons_self, count_point_of_isDigits hw,
          count_point_of_isDigits hf]
      · obtain ⟨c, hc⟩ := List.exists_mem_of_ne_nil _ hne
        rcases List.mem_append.mp hc with hc | hc
        · exact ⟨c, List.mem_append_left _ hc, hw c hc⟩
        · exact ⟨c, List.mem_append_right _ (List.mem_cons_of_mem _ hc), hf c hc⟩
  · rintro ⟨hall, hcount, c, hc, hd⟩
    by_cases hpoint : '.' ∈ t
    · obtain ⟨whole, fraction, rfl⟩ := List.append_of_mem hpoint
      rw [List.count_append, List.count_cons_self] at hcount
      have hw : IsDigits whole := isDigits_of_count
        (fun c hc => hall c (List.mem_append_left _ hc)) (by omega)
      have hf : IsDigits fraction := isDigits_of_count
        (fun c hc => hall c (List.mem_append_right _ (List.mem_cons_of_mem _ hc))) (by omega)
      refine .pointed hw hf fun hnil => ?_
      obtain ⟨rfl, rfl⟩ := List.append_eq_nil_iff.mp hnil
      obtain rfl := List.mem_singleton.mp hc
      cases hd
    · exact .integer (isDigits_of_count hall (List.count_eq_zero.mpr hpoint))
        (List.ne_nil_of_mem hc)

theorem toLower_eq_self_iff {c : Char} : c.toLower = c ↔ c.isUpper = false := by
  have hval := toNat_val_toLower c
  have hupper : c.isUpper = true ↔ 65 ≤ c.val.toNat ∧ c.val.toNat ≤ 90 := by
    simp [Char.isUpper, UInt32.le_iff_toNat_le]
  rw [← Bool.not_eq_true, hupper]
  constructor
  · intro heq hbounds
    rw [heq, if_pos hbounds] at hval
    omega
  · intro hbounds
    rw [if_neg hbounds] at hval
    exact Char.ext (UInt32.toNat_inj.mp hval)

theorem isLower_or_underscore_iff {c : Char} :
    c.isLower = true ∨ c = '_' ↔ Token.isWordCharacter c = true ∧ c.toLower = c := by
  have hdisjoint : c.isLower = true → c.isUpper = false := by
    simp only [Char.isLower, Char.isUpper, Bool.and_eq_true, decide_eq_true_eq, ge_iff_le,
      UInt32.le_iff_toNat_le, decide_eq_false_iff_not]
    rintro ⟨hlow, -⟩
    have h97 : ('a' : Char).val.toNat = 97 := rfl
    have h90 : ('Z' : Char).val.toNat = 90 := rfl
    omega
  rw [toLower_eq_self_iff]
  constructor
  · rintro (hlower | rfl)
    · exact ⟨by simp [Token.isWordCharacter, Char.isAlpha, hlower], hdisjoint hlower⟩
    · exact ⟨rfl, rfl⟩
  · rintro ⟨hword, hupper⟩
    simpa [Token.isWordCharacter, Char.isAlpha, hupper] using hword

theorem lower_eq_self_iff {t : Text} : Text.lower t = t ↔ ∀ c ∈ t, c.toLower = c := by
  refine ⟨fun h => List.map_inj_left.mp (h.trans (List.map_id t).symm), fun h => ?_⟩
  exact (List.map_congr_left h).trans (List.map_id t)

theorem ofName?_eq_none_iff {t : Text} :
    Constant.ofName? t = none ↔ t ≠ Constant.pi.name ∧ t ≠ Constant.e.name := by
  unfold Constant.ofName?
  split
  · next heq => simp [heq]
  · next hpi =>
    split
    · next heq => simp [heq]
    · next he => exact iff_of_true rfl ⟨hpi, he⟩

theorem isName_iff_characters {t : Text} : IsName t ↔
    t ≠ [] ∧ (∀ c ∈ t, c.isLower = true ∨ c = '_') ∧ t ≠ Constant.pi.name ∧
      t ≠ Constant.e.name := by
  rw [← ofName?_eq_none_iff]
  constructor
  · intro h
    refine ⟨h.ne_nil, fun c hc => ?_, h.notConstant⟩
    exact isLower_or_underscore_iff.mpr ⟨h.isWord c hc, lower_eq_self_iff.mp h.isLower c hc⟩
  · rintro ⟨hne, hall, hconstant⟩
    exact ⟨hne, fun c hc => (isLower_or_underscore_iff.mp (hall c hc)).1,
      lower_eq_self_iff.mpr fun c hc => (isLower_or_underscore_iff.mp (hall c hc)).2, hconstant⟩

namespace Token

/-! ### Tokens between spaces -/

theorem endsBefore_nil (token : Token) : token.EndsBefore [] := by
  cases token with
  | number | name | constant => simp [EndsBefore]
  | plus | minus | times | slash | percent | caret | bang | opening | closing | comma => trivial

theorem endsBefore_space (token : Token) (rest : Text) : token.EndsBefore (' ' :: rest) := by
  cases token with
  | number | name | constant => simp [EndsBefore, isWordCharacter, Char.isDigit]
  | plus | minus | times | slash | percent | caret | bang | opening | closing | comma => trivial

theorem readAll_writeAll {ts : List Token} (h : ∀ token ∈ ts, token.WellFormed) :
    readAll (writeAll ts) = .ok ts := by
  induction ts with
  | nil => exact readAll.eq_1
  | cons token ts ih =>
    obtain ⟨hw, hts⟩ := List.forall_mem_cons.mp h
    cases ts with
    | nil =>
      have hread := readAll_text_append hw (endsBefore_nil token)
      rwa [List.append_nil, readAll] at hread
    | cons next ts =>
      show readAll (token.text ++ [' '] ++ writeAll (next :: ts)) = _
      rw [List.append_assoc, List.singleton_append,
        readAll_text_append hw (endsBefore_space token _), readAll_blank rfl, ih hts]
      rfl

theorem exists_readAll_iff {ts : List Token} :
    (∃ t, readAll t = .ok ts) ↔ ∀ token ∈ ts, token.WellFormed :=
  ⟨fun ⟨_, ht⟩ token htoken => (wellFormed_of_readAll ht token htoken).1,
    fun h => ⟨_, readAll_writeAll h⟩⟩

/-- The tokens of a text spell it without its blanks and in lower case. Their numbers are digits
with at most one point, their names are lower case words other than the constants, and
written with spaces between them they are scanned back. -/
theorem readAll_lossless {t : Text} {ts : List Token} (h : readAll t = .ok ts) :
    (ts.map text).flatten = Text.lower (t.filter fun c => !Text.isBlank c) ∧
    (∀ numeral, .number numeral ∈ ts → (∀ c ∈ numeral, c.isDigit = true ∨ c = '.') ∧
      numeral.count '.' ≤ 1 ∧ ∃ c ∈ numeral, c.isDigit = true) ∧
    (∀ word, .name word ∈ ts → word ≠ [] ∧ (∀ c ∈ word, c.isLower = true ∨ c = '_') ∧
      word ≠ Constant.pi.name ∧ word ≠ Constant.e.name) ∧
    readAll (writeAll ts) = .ok ts := by
  have hw := exists_readAll_iff.mp ⟨t, h⟩
  refine ⟨?_, fun numeral hn => ?_, fun word hn => ?_, readAll_writeAll hw⟩
  · rw [← List.flatMap_def]
    exact flatMap_text_of_readAll h
  · exact isNumeral_iff_characters.mp (hw _ hn)
  · exact isName_iff_characters.mp (hw _ hn)

theorem readAll_lossless_split_numbers :
    readAll "1.2.3 +\tSIN(2pi)5..5".toList = .ok [.number "1.2".toList, .number ".3".toList, .plus,
        .name "sin".toList, .opening, .number "2".toList, .constant .pi, .closing,
        .number "5.".toList, .number ".5".toList] ∧
      readAll "1.2 .3 + sin ( 2 pi ) 5. .5".toList = .ok [.number "1.2".toList,
        .number ".3".toList, .plus, .name "sin".toList, .opening, .number "2".toList,
        .constant .pi, .closing, .number "5.".toList, .number ".5".toList] := by
  have h : readAll "1.2.3 +\tSIN(2pi)5..5".toList = .ok [.number "1.2".toList,
      .number ".3".toList, .plus, .name "sin".toList, .opening, .number "2".toList,
      .constant .pi, .closing, .number "5.".toList, .number ".5".toList] := by cbv
  exact ⟨h, (readAll_lossless h).2.2.2⟩

end Token

end DeskCalculator
