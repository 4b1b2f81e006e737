import DeskCalculator.Decimal.Numeral
import DeskCalculator.Proofs.Rounding
import DeskCalculator.Proofs.Token

/-!
# Numerals as they are read

Digits with at most one point, which is what the scan of an expression takes for a
number, are read as the rational number they write. Their length bounds the leading
digit and the last place, so a numeral of reasonable length is never out of range.
-/

set_option autoImplicit false

namespace DeskCalculator

open DeskCalculator.Natural

def wholeDigits (t : Text) : Text := t.takeWhile (· ≠ '.')

def fractionDigits (t : Text) : Text := (t.dropWhile (· ≠ '.')).drop 1

def numeralValue (t : Text) : ℚ :=
  (Nat.ofDigitChars 10 (wholeDigits t ++ fractionDigits t) 0 : ℕ)
    * 10 ^ (-(fractionDigits t).length : ℤ)

theorem ne_point_of_isDigit {c : Char} (h : c.isDigit = true) : c ≠ '.' := by
  rintro rfl
  cases h

theorem not_exponentMark_of_isDigit {c : Char} (h : c.isDigit = true) :
    Decimal.isExponentMark c = false := by
  have he : c ≠ 'e' := by rintro rfl; cases h
  have hE : c ≠ 'E' := by rintro rfl; cases h
  simp [Decimal.isExponentMark, he, hE]

theorem IsNumeral.not_exponentMark {t : Text} (h : IsNumeral t) :
    ∀ c ∈ t, Decimal.isExponentMark c = false := by
  intro c hc
  rcases h.isDigit_or_point c hc with hd | rfl
  · exact not_exponentMark_of_isDigit hd
  · rfl

section
variable {whole : Text} (h : IsDigits whole)
include h

theorem ne_point_of_isDigits : ∀ c ∈ whole, decide (c ≠ '.') = true := fun c hc =>
  decide_eq_true (ne_point_of_isDigit (h c hc))

theorem wholeDigits_of_isDigits : wholeDigits whole = whole :=
  List.takeWhile_eq_self_iff.mpr (ne_point_of_isDigits h)

theorem fractionDigits_of_isDigits : fractionDigits whole = [] := by
  have hdrop : whole.dropWhile (fun c => decide (c ≠ '.')) = [] :=
    List.dropWhile_eq_nil_iff.mpr (ne_point_of_isDigits h)
  rw [fractionDigits, hdrop, List.drop_nil]

variable (fraction : Text)

theorem wholeDigits_pointed : wholeDigits (whole ++ '.' :: fraction) = whole :=
  takeWhile_append_eq (by simp) (ne_point_of_isDigits h)

theorem fractionDigits_pointed : fractionDigits (whole ++ '.' :: fraction) = fraction := by
  have hdrop : (whole ++ '.' :: fraction).dropWhile (fun c => decide (c ≠ '.')) =
      '.' :: fraction := dropWhile_append_eq (by simp) (ne_point_of_isDigits h)
  rw [fractionDigits, hdrop, List.drop_succ_cons, List.drop_zero]

end

theorem trim_eq_self {t : Text} (hb : ∀ c ∈ t, Text.isBlank c = false) : t.trim = t := by
  have hl : t.trimLeft = t :=
    dropWhile_eq_self fun c hc => hb c (List.mem_of_mem_head? hc)
  have hr : t.reverse.dropWhile Text.isBlank = t.reverse :=
    dropWhile_eq_self fun c hc => hb c (List.mem_reverse.mp (List.mem_of_mem_head? hc))
  rw [Text.trim, hl, Text.trimRight, hr, List.reverse_reverse]

namespace IsNumeral

variable {t : Text} (h : IsNumeral t)
include h

theorem digits_eq : wholeDigits t ++ fractionDigits t ≠ [] ∧
    IsDigits (wholeDigits t ++ fractionDigits t) := by
  cases h with
  | integer hw hne =>
    rw [wholeDigits_of_isDigits hw, fractionDigits_of_isDigits hw, List.append_nil]
    exact ⟨hne, hw⟩
  | pointed hw hf hne =>
    rw [wholeDigits_pointed hw, fractionDigits_pointed hw]
    refine ⟨hne, fun c hc => ?_⟩
    rcases List.mem_append.mp hc with hc | hc
    · exact hw c hc
    · exact hf c hc

theorem not_blank : ∀ c ∈ t, Text.isBlank c = false := by
  intro c hc
  rcases h.isDigit_or_point c hc with hd | rfl
  · exact not_blank_of_isDigit hd
  · rfl

theorem trim_eq : t.trim = t := trim_eq_self h.not_blank

end IsNumeral

theorem length_digits_le (t : Text) :
    (wholeDigits t ++ fractionDigits t).length ≤ t.length := by
  have h : (t.takeWhile (· ≠ '.')).length + (t.dropWhile (· ≠ '.')).length = t.length := by
    rw [← List.length_append, List.takeWhile_append_dropWhile]
  rw [List.length_append, wholeDigits, fractionDigits, List.length_drop]
  omega

theorem ofDigitChars_lt {t : Text} (h : IsDigits t) :
    Nat.ofDigitChars 10 t 0 < tens t.length := by
  induction t with
  | nil => exact tens_pos 0
  | cons c t ih =>
    have hc : c.toNat - 48 ≤ 9 := by
      have := h c (by simp)
      simp [Char.isDigit, UInt32.le_iff_toNat_le] at this
      omega
    have ht := ih fun d hd => h d (by simp [hd])
    rw [Nat.ofDigitChars_cons, Nat.ofDigitChars_eq_ofDigitChars_zero, List.length_cons, tens_succ]
    show tens t.length * (10 * 0 + (c.toNat - 48)) + Nat.ofDigitChars 10 t 0 < tens t.length * 10
    calc _ < tens t.length * (10 * 0 + (c.toNat - 48)) + tens t.length := by omega
      _ = tens t.length * (c.toNat - 48 + 1) := by ring
      _ ≤ tens t.length * 10 := Nat.mul_le_mul_left _ (by omega)

theorem abs_numeralValue_lt {t : Text} (h : IsNumeral t) :
    |numeralValue t| < 10 ^ (t.length : ℤ) := by
  have hlt := (ofDigitChars_lt h.digits_eq.2).trans_le (tens_le_tens (length_digits_le t))
  have hlt' : ((Nat.ofDigitChars 10 (wholeDigits t ++ fractionDigits t) 0 : ℕ) : ℚ)
      < 10 ^ (t.length : ℤ) := by
    rw [zpow_natCast]
    exact_mod_cast hlt
  have hle : (10 : ℚ) ^ (-(fractionDigits t).length : ℤ) ≤ 1 :=
    zpow_le_one_of_nonpos₀ (by norm_num) (by omega)
  rw [numeralValue, abs_of_nonneg (by positivity)]
  exact (mul_le_of_le_one_right (by positivity) hle).trans_lt hlt'

/-- A numeral is a whole number of units of its last possible place, and of any lower one. -/
theorem exists_numeralValue_eq {t : Text} {e : ℤ} (he : e ≤ -(t.length : ℤ)) :
    ∃ m : ℤ, numeralValue t = m * 10 ^ e := by
  have hf : (fractionDigits t).length ≤ t.length :=
    le_trans (by simp) (length_digits_le t)
  have hpow := Decimal.ten_zpow_eq_mul
    (show e ≤ -((fractionDigits t).length : ℤ) by omega)
  refine ⟨(Nat.ofDigitChars 10 (wholeDigits t ++ fractionDigits t) 0 *
    tens (-((fractionDigits t).length : ℤ) - e).toNat : ℕ), ?_⟩
  rw [numeralValue, hpow, Int.cast_natCast, Nat.cast_mul, mul_assoc]

namespace Decimal

theorem ten_zpow_le_abs_mul {m e : ℤ} (h : (m : ℚ) * 10 ^ e ≠ 0) :
    (10 : ℚ) ^ e ≤ |(m : ℚ) * 10 ^ e| := by
  have hm : m ≠ 0 := by
    rintro rfl
    exact h (by rw [Int.cast_zero, zero_mul])
  have h1 : (1 : ℚ) ≤ |(m : ℚ)| := by exact_mod_cast Int.one_le_abs hm
  rw [abs_mul, abs_of_pos (ten_zpow_pos e)]
  exact le_mul_of_one_le_left (ten_zpow_pos e).le h1

theorem read_of_value {t : Text} (h : IsNumeral t)
    (hfits : FitsWord (0 - ((fractionDigits t).length : ℤ))) {x : Decimal}
    (hx : x.value = numeralValue t) (hbound : x.bounded? = some x) : read? t = some x := by
  have hc := h.isDigit_or_point
  have hmark : ∀ c ∈ t, (!isExponentMark c) = true := by
    intro c hc
    rw [h.not_exponentMark c hc, Bool.not_false]
  have htake : t.takeWhile (!isExponentMark ·) = t := List.takeWhile_eq_self_iff.mpr hmark
  have hdrop : t.dropWhile (!isExponentMark ·) = [] := List.dropWhile_eq_nil_iff.mpr hmark
  obtain ⟨hne, hd⟩ := h.digits_eq
  have hguard : (!(wholeDigits t ++ fractionDigits t).isEmpty
      && (wholeDigits t ++ fractionDigits t).all Char.isDigit) = true := by
    rw [Bool.and_eq_true, List.all_eq_true, Bool.not_eq_true', List.isEmpty_eq_false_iff]
    exact ⟨hne, hd⟩
  have hscaled : ofScaled (Nat.ofDigitChars 10 (wholeDigits t ++ fractionDigits t) 0 : ℕ)
      (0 - ((fractionDigits t).length : ℤ)) = x := by
    apply value_injective
    rw [value_ofScaled, hx, numeralValue, zero_sub, Int.cast_natCast]
  rw [← hbound, ← hscaled]
  unfold read? readThen
  simp only [h.trim_eq]
  split
  next => exact absurd (hc '-' (by simp)) (by decide)
  next => exact absurd (hc '+' (by simp)) (by decide)
  simp only [htake, hdrop, readExponent?, Option.bind_eq_bind, Option.bind_some]
  show (guard ((!(wholeDigits t ++ fractionDigits t).isEmpty
      && (wholeDigits t ++ fractionDigits t).all Char.isDigit) = true) : Option Unit).bind _ = _
  rw [guard, if_pos hguard]
  show (guard (FitsWord (0 - ((fractionDigits t).length : ℤ))) : Option Unit).bind _ = _
  rw [guard, if_pos hfits]
  rfl

theorem read_of_isNumeral {t : Text} (h : IsNumeral t) (hl : (t.length : ℤ) ≤ maxAdjusted) :
    ∃ x : Decimal, read? t = some x ∧ x.value = numeralValue t := by
  have hf : (fractionDigits t).length ≤ t.length := le_trans (by simp) (length_digits_le t)
  have hmax : maxAdjusted = 9000000000000000 := rfl
  have hfits : FitsWord (0 - ((fractionDigits t).length : ℤ)) := by
    constructor <;> omega
  obtain ⟨x, hx⟩ : ∃ x : Decimal, x.value = numeralValue t := by
    refine ⟨ofScaled (Nat.ofDigitChars 10 (wholeDigits t ++ fractionDigits t) 0 : ℕ)
      (-((fractionDigits t).length : ℤ)), ?_⟩
    rw [value_ofScaled, numeralValue, Int.cast_natCast]
  refine ⟨x, read_of_value h hfits hx (bounded_of_abs ?_ ?_), hx⟩
  · rw [hx]
    exact (abs_numeralValue_lt h).trans (ten_zpow_lt.mpr (by omega))
  · rw [hx]
    obtain ⟨m, hm⟩ := exists_numeralValue_eq (t := t) (e := -maxAdjusted) (by omega)
    rw [hm]
    exact ten_zpow_le_abs_mul

end Decimal

end DeskCalculator
