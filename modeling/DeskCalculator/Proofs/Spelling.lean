import DeskCalculator.Proofs.Written

/-!
# How numbers are spelled

A number is spelled as an optional sign, a numeral, and an optional exponent behind its mark.
The reader accepts these spellings and no other text, and what it reads is the number that is
spelled, with all its digits: only a number above the range is refused, and one below it is
zero. The exponents have to be words of 64 bits, the written one and that of the last digit.
-/

set_option autoImplicit false

namespace DeskCalculator

open DeskCalculator.Natural

inductive SpellsSign : Bool → Text → Prop
  | unsigned : SpellsSign false []
  | plus : SpellsSign false ['+']
  | minus : SpellsSign true ['-']

def withMinus (negative : Bool) (n : ℤ) : ℤ := if negative then -n else n

inductive SpellsExponent : ℤ → Text → Prop
  | absent : SpellsExponent 0 []
  | marked {mark : Char} {negative : Bool} {sign digits : Text} :
      Decimal.isExponentMark mark = true → SpellsSign negative sign → IsDigits digits →
      digits ≠ [] → SpellsExponent (withMinus negative (Nat.ofDigitChars 10 digits 0 : ℕ))
        (mark :: sign ++ digits)

/-- What is spelled: a sign, digits with at most one point, and an exponent. -/
structure NumberParts where
  negative : Bool
  numeral : Text
  exponent : ℤ

namespace NumberParts

def value (n : NumberParts) : ℚ :=
  (if n.negative then -1 else 1) * numeralValue n.numeral * 10 ^ n.exponent

def lastPlace (n : NumberParts) : ℤ := n.exponent - (fractionDigits n.numeral).length

/-- The exponent, as it is written and at the last digit, is a word of 64 bits. -/
def Fits (n : NumberParts) : Prop :=
  Decimal.FitsWord n.exponent ∧ Decimal.FitsWord n.lastPlace

inductive Spells : NumberParts → Text → Prop
  | intro {negative : Bool} {sign numeral mark : Text} {exponent : ℤ} :
      SpellsSign negative sign → IsNumeral numeral → SpellsExponent exponent mark →
      Spells ⟨negative, numeral, exponent⟩ (sign ++ numeral ++ mark)

end NumberParts

/-! ### Signs -/

def splitSign (t : Text) : Bool × Text :=
  match t with
  | '-' :: rest => (true, rest)
  | '+' :: rest => (false, rest)
  | _ => (false, t)

theorem spellsSign_of_splitSign (t : Text) :
    ∃ sign, SpellsSign (splitSign t).1 sign ∧ t = sign ++ (splitSign t).2 := by
  unfold splitSign
  split
  · exact ⟨_, .minus, rfl⟩
  · exact ⟨_, .plus, rfl⟩
  · exact ⟨_, .unsigned, rfl⟩

theorem splitSign_append {negative : Bool} {sign rest : Text} (h : SpellsSign negative sign)
    (hr : ∀ c ∈ rest.head?, c ≠ '-' ∧ c ≠ '+') : splitSign (sign ++ rest) = (negative, rest) := by
  cases h with
  | plus => rfl
  | minus => rfl
  | unsigned =>
    rw [List.nil_append]
    unfold splitSign
    split
    · exact absurd rfl (hr '-' rfl).1
    · exact absurd rfl (hr '+' rfl).2
    · rfl

theorem not_sign_of_isDigit {c : Char} (h : c.isDigit = true) : c ≠ '-' ∧ c ≠ '+' := by
  constructor <;> (rintro rfl; cases h)

theorem not_sign_of_isNumeral {t : Text} (h : IsNumeral t) (rest : Text) :
    ∀ c ∈ (t ++ rest).head?, c ≠ '-' ∧ c ≠ '+' := by
  intro c hc
  rw [List.head?_append_of_ne_nil _ h.ne_nil] at hc
  rcases h.isDigit_or_point c (List.mem_of_mem_head? hc) with hd | rfl
  · exact not_sign_of_isDigit hd
  · decide

theorem not_sign_of_isDigits {t : Text} (h : IsDigits t) : ∀ c ∈ t.head?, c ≠ '-' ∧ c ≠ '+' :=
  fun c hc => not_sign_of_isDigit (h c (List.mem_of_mem_head? hc))

/-! ### Digits -/

theorem nonempty_digits_iff {t : Text} :
    (!t.isEmpty && t.all Char.isDigit) = true ↔ t ≠ [] ∧ IsDigits t := by
  rw [Bool.and_eq_true, List.all_eq_true, Bool.not_eq_true', List.isEmpty_eq_false_iff]
  rfl

theorem empty_or_not_digits_iff {t : Text} :
    (t.isEmpty || !t.all Char.isDigit) = true ↔ ¬(t ≠ [] ∧ IsDigits t) := by
  rw [← nonempty_digits_iff]
  cases t.isEmpty <;> cases t.all Char.isDigit <;> decide

theorem isNumeral_iff {t : Text} : IsNumeral t ↔
    wholeDigits t ++ fractionDigits t ≠ [] ∧ IsDigits (wholeDigits t ++ fractionDigits t) := by
  refine ⟨IsNumeral.digits_eq, fun ⟨hne, hd⟩ => ?_⟩
  have hw : IsDigits (wholeDigits t) := fun c hc => hd c (List.mem_append_left _ hc)
  have hf : IsDigits (fractionDigits t) := fun c hc => hd c (List.mem_append_right _ hc)
  have hsplit : wholeDigits t ++ t.dropWhile (· ≠ '.') = t := List.takeWhile_append_dropWhile
  have hhead := List.head?_dropWhile_not (· ≠ '.') t
  unfold fractionDigits at hne hf
  cases hdrop : t.dropWhile (· ≠ '.') with
  | nil =>
    rw [hdrop, List.append_nil] at hsplit
    rw [hdrop, List.drop_nil, List.append_nil] at hne
    rw [← hsplit]
    exact .integer hw hne
  | cons c fraction =>
    rw [hdrop] at hsplit hne hf hhead
    obtain rfl : c = '.' := not_not.mp (of_decide_eq_false hhead)
    rw [← hsplit]
    exact .pointed hw hf hne

theorem SpellsSign.not_blank {negative : Bool} {t : Text} (h : SpellsSign negative t) :
    ∀ c ∈ t, Text.isBlank c = false := by
  intro c hc
  cases h with
  | unsigned => cases hc
  | plus | minus =>
    obtain rfl := List.mem_singleton.mp hc
    rfl

/-! ### Exponents -/

theorem SpellsExponent.head {n : ℤ} {t : Text} (h : SpellsExponent n t) :
    ∀ c ∈ t.head?, Decimal.isExponentMark c = true := by
  intro c hc
  cases h with
  | absent => cases hc
  | marked hmark =>
    cases hc
    exact hmark

theorem not_blank_of_isExponentMark {c : Char} (h : Decimal.isExponentMark c = true) :
    Text.isBlank c = false := by
  rcases Bool.or_eq_true _ _ ▸ h with h | h <;>
    (obtain rfl := of_decide_eq_true h; rfl)

theorem SpellsExponent.not_blank {n : ℤ} {t : Text} (h : SpellsExponent n t) :
    ∀ c ∈ t, Text.isBlank c = false := by
  intro c hc
  cases h with
  | absent => cases hc
  | marked hmark hs hd =>
    rcases List.mem_cons.mp hc with rfl | hc
    · exact not_blank_of_isExponentMark hmark
    · rcases List.mem_append.mp hc with hc | hc
      · exact hs.not_blank c hc
      · exact not_blank_of_isDigit (hd c hc)

theorem NumberParts.Spells.trim_eq {n : NumberParts} {t : Text} (h : n.Spells t) : t.trim = t := by
  refine trim_eq_self fun c hc => ?_
  cases h with
  | intro hs hn he =>
    rcases List.mem_append.mp hc with hc | hc
    · rcases List.mem_append.mp hc with hc | hc
      · exact hs.not_blank c hc
      · exact hn.not_blank c hc
    · exact he.not_blank c hc

namespace Decimal

theorem readWord?_eq_some_iff {t : Text} {n : ℤ} : readWord? t = some n ↔
    ∃ negative sign digits, SpellsSign negative sign ∧ IsDigits digits ∧ digits ≠ [] ∧
      t = sign ++ digits ∧ n = withMinus negative (Nat.ofDigitChars 10 digits 0 : ℕ) ∧
      FitsWord n := by
  have hread : readWord? t =
      if (splitSign t).2.isEmpty || !(splitSign t).2.all Char.isDigit then none
      else if FitsWord (withMinus (splitSign t).1 (Nat.ofDigitChars 10 (splitSign t).2 0 : ℕ)) then
        some (withMinus (splitSign t).1 (Nat.ofDigitChars 10 (splitSign t).2 0 : ℕ)) else none := rfl
  rw [hread]
  constructor
  · intro h
    split at h
    · cases h
    · next hd =>
      split at h
      · next hfits =>
        obtain ⟨sign, hs, ht⟩ := spellsSign_of_splitSign t
        obtain ⟨hne, hd⟩ := not_not.mp fun h => hd (empty_or_not_digits_iff.mpr h)
        cases h
        exact ⟨_, sign, _, hs, hd, hne, ht, rfl, hfits⟩
      · cases h
  · rintro ⟨negative, sign, digits, hs, hd, hne, rfl, rfl, hfits⟩
    rw [splitSign_append hs (not_sign_of_isDigits hd),
      if_neg fun h => empty_or_not_digits_iff.mp h ⟨hne, hd⟩, if_pos hfits]

theorem readExponent?_eq_some_iff {t : Text} (ht : ∀ c ∈ t.head?, isExponentMark c = true) {n : ℤ} :
    readExponent? t = some n ↔ SpellsExponent n t ∧ FitsWord n := by
  cases t with
  | nil =>
    constructor
    · rintro ⟨⟩
      exact ⟨.absent, by decide⟩
    · rintro ⟨⟨⟩, -⟩
      rfl
  | cons mark word =>
    show readWord? word = some n ↔ _
    rw [readWord?_eq_some_iff]
    constructor
    · rintro ⟨negative, sign, digits, hs, hd, hne, rfl, rfl, hfits⟩
      exact ⟨.marked (ht mark rfl) hs hd hne, hfits⟩
    · rintro ⟨h, hfits⟩
      cases h with
      | marked hmark hs hd hne => exact ⟨_, _, _, hs, hd, hne, rfl, rfl, hfits⟩

/-! ### The number that is read -/

def ofParts (n : NumberParts) : Decimal :=
  ofScaled (withMinus n.negative
    (Nat.ofDigitChars 10 (wholeDigits n.numeral ++ fractionDigits n.numeral) 0 : ℕ)) n.lastPlace

theorem value_ofParts (n : NumberParts) : (ofParts n).value = n.value := by
  rw [ofParts, value_ofScaled, NumberParts.value, NumberParts.lastPlace, numeralValue, withMinus,
    sub_eq_neg_add, ten_zpow_add]
  split <;> push_cast <;> ring

theorem split_at_mark {numeral mark : Text} {exponent : ℤ} (hn : IsNumeral numeral)
    (hm : SpellsExponent exponent mark) :
    (numeral ++ mark).takeWhile (!isExponentMark ·) = numeral ∧
      (numeral ++ mark).dropWhile (!isExponentMark ·) = mark := by
  have hdigits : ∀ c ∈ numeral, (!isExponentMark c) = true := by
    intro c hc
    rw [hn.not_exponentMark c hc, Bool.not_false]
  have hmark : ∀ c ∈ mark.head?, (!isExponentMark c) = false := by
    intro c hc
    rw [hm.head c hc, Bool.not_true]
  exact ⟨takeWhile_append_eq hmark hdigits, dropWhile_append_eq hmark hdigits⟩

theorem read?_eq (t : Text) : read? t =
    let body := (splitSign t.trim).2
    let numeral := body.takeWhile (!isExponentMark ·)
    let digits := wholeDigits numeral ++ fractionDigits numeral
    (readExponent? (body.dropWhile (!isExponentMark ·))).bind fun exponent =>
      (guard (!digits.isEmpty && digits.all Char.isDigit) : Option Unit).bind fun _ =>
        (guard (FitsWord (exponent - (fractionDigits numeral).length)) : Option Unit).bind fun _ =>
          (ofParts ⟨(splitSign t.trim).1, numeral, exponent⟩).bounded? := rfl

theorem read?_eq_some_iff {t : Text} {x : Decimal} : read? t = some x ↔
    ∃ n : NumberParts, n.Spells t.trim ∧ n.Fits ∧ (ofParts n).bounded? = some x := by
  rw [read?_eq]
  simp only [Option.bind_eq_some_iff, Option.guard_eq_some']
  constructor
  · rintro ⟨exponent, hexponent, -, hdigits, -, hfits, hx⟩
    have hmark := List.head?_dropWhile_not (!isExponentMark ·) (splitSign t.trim).2
    obtain ⟨hspells, hword⟩ := (readExponent?_eq_some_iff (by
      intro c hc
      rw [Option.mem_def.mp hc] at hmark
      rwa [← Bool.not_eq_false'])).mp hexponent
    obtain ⟨sign, hs, ht⟩ := spellsSign_of_splitSign t.trim
    have hnumeral := isNumeral_iff.mpr (nonempty_digits_iff.mp hdigits)
    refine ⟨⟨_, _, exponent⟩, ?_, ⟨hword, hfits⟩, hx⟩
    have hspelled := NumberParts.Spells.intro hs hnumeral hspells
    rwa [List.append_assoc, List.takeWhile_append_dropWhile, ← ht] at hspelled
  · rintro ⟨n, hn, hfits, hx⟩
    generalize t.trim = u at hn
    cases hn with
    | @intro negative sign numeral mark exponent hs hnumeral hmark =>
      have hsplit := splitSign_append hs (not_sign_of_isNumeral hnumeral mark)
      obtain ⟨htake, hdrop⟩ := split_at_mark hnumeral hmark
      have hexponent := (readExponent?_eq_some_iff hmark.head).mpr ⟨hmark, hfits.1⟩
      rw [List.append_assoc, hsplit, htake, hdrop]
      exact ⟨exponent, hexponent, (), nonempty_digits_iff.mpr (isNumeral_iff.mp hnumeral), (),
        hfits.2, hx⟩

variable {x : Decimal}

theorem read?_eq_some_iff_value {t : Text} {x : Decimal} : read? t = some x ↔
    ∃ n : NumberParts, n.Spells t.trim ∧ n.Fits ∧ |n.value| < 10 ^ (maxAdjusted + 1) ∧
      x.value = if |n.value| < 10 ^ (-maxAdjusted) then 0 else n.value := by
  rw [read?_eq_some_iff]
  simp only [bounded?_eq_some_iff, value_ofParts]

theorem fits_of_le {n : NumberParts} (he : |n.exponent| ≤ 9 * 10 ^ 18)
    (hf : (fractionDigits n.numeral).length ≤ 2 * 10 ^ 17) : n.Fits := by
  obtain ⟨hlow, hhigh⟩ := abs_le.mp he
  have hplace : n.lastPlace = n.exponent - (fractionDigits n.numeral).length := rfl
  constructor <;> constructor <;> omega

/-- The reader gives a number just for the spellings of a number that is not above the range, and
gives it exactly, or zero for one below the range. Of the exponent it asks that it is a word,
as it is written and at the last digit; for an exponent of at most `9 * 10 ^ 18` and any number
of digits that occurs it is. -/
theorem read?_iff_spells (t : Text) :
    ((∃ x, read? t = some x) ↔ ∃ n : NumberParts, n.Spells t.trim ∧ n.Fits ∧
      |n.value| < 10 ^ (maxAdjusted + 1)) ∧
    (∀ x, read? t = some x ↔ ∃ n : NumberParts, n.Spells t.trim ∧ n.Fits ∧
      |n.value| < 10 ^ (maxAdjusted + 1) ∧
      x.value = if |n.value| < 10 ^ (-maxAdjusted) then 0 else n.value) ∧
    ∀ n : NumberParts, |n.exponent| ≤ 9 * 10 ^ 18 →
      (fractionDigits n.numeral).length ≤ 2 * 10 ^ 17 → n.Fits := by
  refine ⟨⟨?_, ?_⟩, fun x => read?_eq_some_iff_value, fun n => fits_of_le⟩
  · rintro ⟨x, hx⟩
    obtain ⟨n, hn, hfits, hlt, -⟩ := read?_eq_some_iff_value.mp hx
    exact ⟨n, hn, hfits, hlt⟩
  · rintro ⟨n, hn, hfits, hlt⟩
    refine ⟨if |n.value| < 10 ^ (-maxAdjusted) then zero else ofParts n, ?_⟩
    refine read?_eq_some_iff_value.mpr ⟨n, hn, hfits, hlt, ?_⟩
    split
    · exact value_zero
    · exact value_ofParts n

theorem read?_iff_spells_padded : ∃ n : NumberParts, n.Spells (Text.trim " -12.50e-3\t".toList) ∧
    n.exponent = -3 ∧ n.Fits ∧ ∃ x, read? " -12.50e-3\t".toList = some x ∧ x.value = -0.0125 := by
  have htrim : Text.trim " -12.50e-3\t".toList = "-12.50e-3".toList := by decide
  have hspells : NumberParts.Spells ⟨true, "12.50".toList, -3⟩ "-12.50e-3".toList :=
    @NumberParts.Spells.intro true "-".toList "12.50".toList "e-3".toList (-3) .minus
      (@IsNumeral.pointed "12".toList "50".toList (List.all_eq_true.mp rfl)
        (List.all_eq_true.mp rfl) (by decide))
      (@SpellsExponent.marked 'e' true "-".toList "3".toList rfl .minus (List.all_eq_true.mp rfl)
        (by decide))
  obtain ⟨-, hread, hfits⟩ := read?_iff_spells " -12.50e-3\t".toList
  have hn := hfits ⟨true, "12.50".toList, -3⟩ (by decide) (by decide)
  have hvalue : NumberParts.value ⟨true, "12.50".toList, -3⟩ = -0.0125 := by
    have hnumeral : numeralValue "12.50".toList = ((1250 : ℕ) : ℚ) * 10 ^ (-((2 : ℕ) : ℤ)) := rfl
    rw [NumberParts.value, hnumeral]
    norm_num
  have hhigh : |(-0.0125 : ℚ)| < 10 ^ (maxAdjusted + 1) :=
    lt_of_lt_of_le (by norm_num) (ten_zpow_le.mpr (show 0 ≤ maxAdjusted + 1 by decide))
  have hlow : ¬|(-0.0125 : ℚ)| < 10 ^ (-maxAdjusted) :=
    not_lt.mpr ((ten_zpow_le.mpr (show -maxAdjusted ≤ -2 by decide)).trans (by norm_num))
  refine ⟨⟨true, "12.50".toList, -3⟩, by rwa [htrim], rfl, hn,
    ofParts ⟨true, "12.50".toList, -3⟩, (hread _).mpr ⟨_, by rwa [htrim], hn, ?_, ?_⟩, ?_⟩
  · rwa [hvalue]
  · rw [value_ofParts, hvalue, if_neg hlow]
  · rw [value_ofParts, hvalue]

/-! ### The full form read back -/

theorem spellsSign_signText (x : Decimal) : SpellsSign x.isNegative x.signText := by
  unfold signText
  cases x.isNegative with
  | true => exact .minus
  | false => exact .unsigned

theorem spellsSign_exponentSign (x : Decimal) :
    SpellsSign (x.exponent < 0) x.exponentSign.token.text := by
  unfold exponentSign
  by_cases h : x.exponent < 0
  · rw [if_pos h, decide_eq_true h]
    exact .minus
  · rw [if_neg h, decide_eq_false h]
    exact .plus

theorem withMinus_natAbs (n : ℤ) : withMinus (n < 0) n.natAbs = n := by
  unfold withMinus
  split
  · next h => have := of_decide_eq_true h; omega
  · next h => have := of_decide_eq_false (Bool.not_eq_true _ ▸ h); omega

theorem spellsExponent_exponent (x : Decimal) : SpellsExponent x.exponent
    ('e' :: x.exponentSign.token.text ++ Nat.toDigits 10 x.exponent.natAbs) := by
  have hmark : isExponentMark 'e' = true := rfl
  have hmarked := SpellsExponent.marked hmark (spellsSign_exponentSign x)
    (isDigits_toDigits x.exponent.natAbs) Nat.toDigits_ne_nil
  rwa [Nat.ofDigitChars_toDigits (by decide) (by decide), withMinus_natAbs] at hmarked

theorem fitsWord_exponent (hr : x.InRange) (hs : x.Shallow) : FitsWord x.exponent := by
  refine ⟨hs, ?_⟩
  rcases hr with hm | ⟨-, hhigh⟩
  · rw [exponent_eq_zero hm]
    decide
  · have hlength := x.length_pos
    have hadjusted := x.adjusted_eq
    have hmax : maxAdjusted = 9000000000000000 := rfl
    omega

theorem exists_parts_of_write (hr : x.InRange) (hs : x.Shallow) :
    ∃ n : NumberParts, n.Spells x.write ∧ n.Fits ∧ n.value = x.value := by
  by_cases h : x.Positional
  · obtain ⟨t, hwrite, ht⟩ := exists_magnitude_of_positional h
    refine ⟨⟨x.isNegative, t, 0⟩, ?_, ⟨(by decide : FitsWord 0), ?_⟩, ?_⟩
    · rw [hwrite, ← List.append_nil (x.signText ++ t)]
      exact .intro (spellsSign_signText x) ht.isNumeral .absent
    · have hplaces := ht.places
      have hlow : -9223372036854775808 ≤ x.exponent := hs
      show FitsWord (0 - (fractionDigits t).length)
      constructor <;> omega
    · rw [NumberParts.value, ← ht.value, zpow_zero, mul_one]
      exact sign_mul_abs_value x
  · have hword := fitsWord_exponent hr hs
    refine ⟨⟨x.isNegative, x.digitText, x.exponent⟩, ?_, ⟨hword, ?_⟩, ?_⟩
    · rw [write_of_not_positional h, List.append_assoc x.digitText, ← List.append_assoc]
      exact .intro (spellsSign_signText x) (.integer x.isDigits_digitText x.digitText_ne_nil)
        (spellsExponent_exponent x)
    · rw [NumberParts.lastPlace, fractionDigits_of_isDigits x.isDigits_digitText, List.length_nil,
        Nat.cast_zero, sub_zero]
      exact hword
    · rw [NumberParts.value, numeralValue_of_isDigits x.isDigits_digitText, ofDigitChars_digitText,
        mul_assoc, ← abs_value]
      exact sign_mul_abs_value x

/-- The full form of a decimal in the range is read back as the same decimal. -/
theorem read?_write (hr : x.InRange) (hs : x.Shallow) : read? x.write = some x := by
  obtain ⟨n, hn, hfits, hvalue⟩ := exists_parts_of_write hr hs
  have hbound := bounded?_eq_some_iff.mp (show x.bounded? = some x from if_pos hr)
  rw [← hvalue] at hbound
  refine read?_eq_some_iff_value.mpr ⟨n, ?_, hfits, hbound.1, ?_⟩
  · rwa [hn.trim_eq]
  · rw [← hvalue]
    exact hbound.2

theorem read?_write_large :
    let x : Decimal := ⟨-7, 2000, .inr (by decide)⟩
    x.InRange ∧ x.Shallow ∧ x.write = "-7e+2000".toList ∧ read? x.write = some x := by
  intro x
  have hr : x.InRange := by decide +kernel
  have hs : x.Shallow := show -9223372036854775808 ≤ (2000 : ℤ) by decide
  exact ⟨hr, hs, by decide +kernel, read?_write hr hs⟩

end Decimal

end DeskCalculator
