import DeskCalculator.Proofs.Parity
import DeskCalculator.Proofs.Session
import DeskCalculator.Proofs.Sign
import DeskCalculator.Proofs.Spelling

/-!
# The value of an entry

The keys of the buffer read an entry as a number, and an evaluation reads the text as an
expression. Where the text is one entry, its characters leave two spellings of a number: a
numeral, perhaps with a minus before it, and the same with a mark and digits behind it. Without
the mark both readings give the same number. The grammar has no exponents, so with the mark
the buffer still reads a number, and an evaluation refuses the text at the mark.
-/

set_option autoImplicit false

namespace DeskCalculator

namespace Entry

variable {t : Text} {v : Decimal}

/-- How a text that is one entry spells the number `v`. -/
inductive SpellsNumber (t : Text) (v : Decimal) : Prop
  | plain {negative : Bool} {m : Text} {y : Decimal} :
      t = (if negative then ['-'] else []) ++ m → IsNumeral m → Decimal.read? m = some y →
      v = (if negative then -y else y) → SpellsNumber t v
  | scaled {negative : Bool} {m digits : Text} {mark : Char} :
      t = (if negative then ['-'] else []) ++ (m ++ mark :: digits) → IsNumeral m →
      Decimal.isExponentMark mark = true → IsDigits digits → digits ≠ [] → SpellsNumber t v

theorem exists_word_of_last? (h : last? t = some ⟨[], t, []⟩) : ∃ (negative : Bool) (word : Text),
    t = (if negative then ['-'] else []) ++ word ∧ ∀ c ∈ word, isEntryCharacter c = true := by
  have hs := last?_eq_some_iff.mp h
  generalize he : (⟨[], t, []⟩ : Entry) = e at hs
  cases hs with
  | @unsigned before word after hb =>
    obtain ⟨rfl, -, rfl⟩ := Entry.mk.inj he
    exact ⟨false, word, by simp, hb.isEntry⟩
  | @signed before word after hb =>
    obtain ⟨rfl, -, rfl⟩ := Entry.mk.inj he
    exact ⟨true, word, by simp, hb.isEntry⟩

theorem not_sign_of_isEntryCharacter {c : Char} (h : isEntryCharacter c = true) :
    c ≠ '-' ∧ c ≠ '+' := by
  constructor <;> (rintro rfl; cases h)

theorem not_blank_of_isEntryCharacter {c : Char} (h : isEntryCharacter c = true) :
    Text.isBlank c = false :=
  not_blank_of_isLexemeCharacter (isLexemeCharacter_of_isEntryCharacter h)

theorem spellsSign_ite (negative : Bool) :
    SpellsSign negative (if negative then ['-'] else []) := by
  cases negative with
  | false => exact .unsigned
  | true => exact .minus

theorem trim_of_last? (h : last? t = some ⟨[], t, []⟩) : t.trim = t := by
  obtain ⟨minus, word, ht, hword⟩ := exists_word_of_last? h
  refine trim_eq_self fun c hc => ?_
  rcases List.mem_append.mp (ht ▸ hc) with hc | hc
  · exact (spellsSign_ite minus).not_blank c hc
  · exact not_blank_of_isEntryCharacter (hword c hc)

theorem trim_ne_nil_of_last? (h : last? t = some ⟨[], t, []⟩) : t.trim ≠ [] := by
  rw [trim_of_last? h]
  rintro rfl
  cases h

theorem exists_bounded_of_parts {negative : Bool} {m : Text}
    (h : (Decimal.ofParts ⟨negative, m, 0⟩).bounded? = some v) :
    ∃ y, (Decimal.ofParts ⟨false, m, 0⟩).bounded? = some y ∧ v = if negative then -y else y := by
  cases negative with
  | false => exact ⟨v, h, rfl⟩
  | true =>
    have hneg : Decimal.ofParts ⟨true, m, 0⟩ = -Decimal.ofParts ⟨false, m, 0⟩ :=
      Decimal.ofScaled_neg _ _
    rw [hneg, Decimal.bounded?_neg] at h
    obtain ⟨y, hy, rfl⟩ := Option.map_eq_some_iff.mp h
    exact ⟨y, hy, rfl⟩

theorem spellsNumber_of_read (h : last? t = some ⟨[], t, []⟩) (hv : Decimal.read? t = some v) :
    SpellsNumber t v := by
  obtain ⟨minus, word, ht, hword⟩ := exists_word_of_last? h
  have hsplit : splitSign t = (minus, word) := by
    rw [ht]
    exact splitSign_append (spellsSign_ite minus) fun c hc =>
      not_sign_of_isEntryCharacter (hword c (List.mem_of_mem_head? hc))
  obtain ⟨n, hn, hfits, hbounded⟩ := Decimal.read?_eq_some_iff.mp hv
  rw [trim_of_last? h] at hn
  cases hn with
  | @intro negative sign m mark exponent hsign hm hmark =>
    -- the sign is the one that the entry has, and the word is the rest of the spelling
    rw [List.append_assoc, splitSign_append hsign (not_sign_of_isNumeral hm mark)] at hsplit
    obtain ⟨rfl, rfl⟩ := Prod.mk.inj hsplit
    cases hmark with
    | absent =>
      simp only [List.append_nil] at ht ⊢
      obtain ⟨y, hy, hvy⟩ := exists_bounded_of_parts hbounded
      have hspells : NumberParts.Spells ⟨false, m, 0⟩ m.trim := by
        rw [hm.trim_eq]
        simpa using NumberParts.Spells.intro .unsigned hm .absent
      exact .plain ht hm (Decimal.read?_eq_some_iff.mpr ⟨_, hspells, hfits, hy⟩) hvy
    | marked hmark hsigned hd hne =>
      cases hsigned with
      | unsigned => exact .scaled ht hm hmark hd hne
      | plus => exact absurd rfl (not_sign_of_isEntryCharacter (hword '+' (by simp))).2
      | minus => exact absurd rfl (not_sign_of_isEntryCharacter (hword '-' (by simp))).1

namespace SpellsNumber

theorem read_cases (h : SpellsNumber t v) :
    (t.any Decimal.isExponentMark = false ∧
      ∃ a, Expr.read t = .ok a ∧ ∀ unit c, a.eval unit c = .ok v) ∨
    (t.any Decimal.isExponentMark = true ∧ Expr.read t = .error (.trailingToken ['e'])) := by
  cases h with
  | @plain negative m y ht hm hy hv =>
    obtain ⟨a, hread, heval⟩ := Decimal.exists_read_of_isNumeral negative hm hy
    refine .inl ⟨?_, a, ht ▸ hread, fun unit c => hv ▸ heval unit c⟩
    rw [ht, List.any_append, Bool.or_eq_false_iff]
    exact ⟨by cases negative <;> rfl,
      List.any_eq_false.mpr fun c hc => by simp [hm.not_exponentMark c hc]⟩
  | @scaled negative m digits mark ht hm hmark hd hne =>
    have hscan := Decimal.readAll_marked hm hmark
      (fun c hc => not_word_of_isDigit (hd c (List.mem_of_mem_head? hc)))
      (Decimal.readAll_of_isNumeral (.integer hd hne))
    refine .inr ⟨?_, ht ▸ Decimal.read_of_constant_after_numeral negative hscan⟩
    rw [ht]
    simp [hmark]

end SpellsNumber

end Entry

namespace Session

variable {s : Session}

theorem calculate_eq_read (h : s.buffer.text.trim ≠ []) :
    s.calculate = (Expr.read s.buffer.text).bind s.preferences.evaluate := by
  rw [calculate, Expr.validate_eq (by rwa [Text.trim_trim]), Preferences.evaluateText_eq,
    Expr.read_trim]
  cases Expr.read s.buffer.text <;> rfl

theorem evaluate_of_failure {e : CalcError} (hne : s.buffer.text.trim ≠ [])
    (h : s.calculate = .error e) (now : UInt64) :
    s.evaluate now = (false, { s with notice := some (.calculation e) }) := by
  unfold evaluate
  simp only [h, List.isEmpty_iff, if_neg hne]

/-- Where the text is one entry that the buffer reads as a number, that number is the current
value. Without an exponent the text evaluates to it, rounded to the digits in force; with one
the evaluation fails at the mark. -/
theorem evaluate_entry {v : Decimal} (hlast : s.buffer.lastResult = none)
    (he : Entry.last? s.buffer.text = some ⟨[], s.buffer.text, []⟩)
    (hv : Decimal.read? s.buffer.text = some v) (now : UInt64) :
    s.buffer.currentValue? s.preferences = some v ∧
      if s.buffer.text.any Decimal.isExponentMark then
        s.evaluate now = (false, { s with notice := some (.calculation (.trailingToken ['e'])) })
      else
        s.preferences.evaluateText s.buffer.text = .ok (v.round s.preferences.context.digits) ∧
        (s.evaluate now).1 = true ∧
        (s.evaluate now).2.buffer.lastResult = some (v.round s.preferences.context.digits) ∧
        (s.evaluate now).2.result =
          (v.round s.preferences.context.digits).short Decimal.displayDigits := by
  have hne := Entry.trim_ne_nil_of_last? he
  constructor
  · rw [Buffer.currentValue?, hlast, Buffer.entryValue?, he]
    show (Decimal.read? s.buffer.text).orElse _ = _
    rw [hv]
    rfl
  obtain ⟨hmark, a, hread, heval⟩ | ⟨hmark, hread⟩ := (Entry.spellsNumber_of_read he hv).read_cases
  · have hvalue : s.preferences.evaluate a = .ok (v.round s.preferences.context.digits) := by
      rw [Preferences.evaluate, heval]
      rfl
    have hcalculate : s.calculate = .ok (v.round s.preferences.context.digits) := by
      rw [calculate_eq_read hne, hread]
      exact hvalue
    rw [hmark, if_neg Bool.false_ne_true, evaluate_of_calculate hcalculate,
      Preferences.evaluateText_eq, hread]
    exact ⟨hvalue, rfl, rfl, rfl⟩
  · rw [hmark, if_pos rfl]
    refine evaluate_of_failure hne ?_ now
    rw [calculate_eq_read hne, hread]
    rfl

theorem evaluate_entry_negative :
    ((start {}).press 1 (.insert "-2.50".toList)).buffer.currentValue? {} =
        Decimal.read? "-2.5".toList ∧
      (((start {}).press 1 (.insert "-2.50".toList)).evaluate 2).2.result = "-2.5".toList := by
  have hv : Decimal.read? "-2.50".toList = some (-Decimal.ofScaled 25 (-1)) := by decide +kernel
  obtain ⟨hcurrent, hevaluate⟩ := evaluate_entry
    (s := (start {}).press 1 (.insert "-2.50".toList)) rfl (by decide +kernel) hv 2
  rw [if_neg (by decide)] at hevaluate
  exact ⟨hcurrent.trans (by decide +kernel), hevaluate.2.2.2.trans (by decide +kernel)⟩

/-- The buffer reads a number with an exponent where an evaluation finds the constant `e`. -/
theorem exponent_entry_not_evaluated : ¬ ∀ (s : Session) (v : Decimal) (now : UInt64),
    s.buffer.lastResult = none →
    Entry.last? s.buffer.text = some ⟨[], s.buffer.text, []⟩ →
    Decimal.read? s.buffer.text = some v →
    (s.evaluate now).1 = true ∧
      (s.evaluate now).2.buffer.lastResult = some (v.round s.preferences.context.digits) := by
  intro h
  have hv : Decimal.read? "1e5".toList = some (Decimal.ofScaled 1 5) := by decide +kernel
  have hread : Expr.read "1e5".toList = .error (.trailingToken ['e']) := by cbv
  have he : Entry.last? "1e5".toList = some ⟨[], "1e5".toList, []⟩ := by decide +kernel
  have hne := Entry.trim_ne_nil_of_last? he
  have hfails : ((start {}).press 1 (.insert "1e5".toList)).calculate =
      .error (.trailingToken ['e']) := by
    rw [calculate_eq_read hne]
    show (Expr.read "1e5".toList).bind _ = _
    rw [hread]
    rfl
  have hok := (h ((start {}).press 1 (.insert "1e5".toList)) _ 2 rfl he hv).1
  rw [evaluate_of_failure hne hfails] at hok
  cases hok

end Session

end DeskCalculator
