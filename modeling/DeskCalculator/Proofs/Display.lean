import DeskCalculator.Proofs.Nearest
import DeskCalculator.Proofs.Quotient
import DeskCalculator.Proofs.Spelling
import DeskCalculator.Proofs.Sum

/-!
# The short form read back

The short form rounds a decimal and then spells the rounded number exactly, in one of two layouts:
the full form, which is positional there, or one digit before the point and an exponent. So the
reader gives the rounded number back. The layout follows the leading digit of the rounded number,
also where rounding has carried into a new one. A short form without the mark of an exponent is an
expression for the rounded number as well.
-/

set_option autoImplicit false

namespace DeskCalculator

open DeskCalculator.Natural

theorem spellsExponent_signed (n : ℤ) : SpellsExponent n
    (['e', if n < 0 then '-' else '+'] ++ Nat.toDigits 10 n.natAbs) := by
  have hsign : SpellsSign (n < 0) [if n < 0 then '-' else '+'] := by
    by_cases h : n < 0
    · rw [if_pos h, decide_eq_true h]
      exact .minus
    · rw [if_neg h, decide_eq_false h]
      exact .plus
  have hmark : Decimal.isExponentMark 'e' = true := rfl
  have hmarked := SpellsExponent.marked hmark hsign (isDigits_toDigits n.natAbs) Nat.toDigits_ne_nil
  rwa [Nat.ofDigitChars_toDigits (by decide) (by decide), Decimal.withMinus_natAbs] at hmarked

namespace Decimal

variable {x v : Decimal} {digits : ℕ}

theorem length_digitText (x : Decimal) : x.digitText.length = x.length := by
  have hpos : 0 < x.digitText.length := List.length_pos_of_ne_nil x.digitText_ne_nil
  refine le_antisymm (Nat.toDigits_length 10 _ _ x.length_pos (lt_tens_digitCount _)) ?_
  rw [length, digitCount_le_iff hpos, ← ofDigitChars_digitText]
  exact ofDigitChars_lt x.isDigits_digitText

theorem read?_of_spells {n : NumberParts} {t : Text} (hn : n.Spells t) (hfits : n.Fits)
    (hvalue : n.value = x.value) (hr : x.InRange) : read? t = some x := by
  obtain ⟨hhigh, hlow⟩ := bounded?_eq_some_iff.mp (show x.bounded? = some x from if_pos hr)
  rw [← hvalue] at hhigh hlow
  exact read?_eq_some_iff_value.mpr ⟨n, hn.trim_eq.symm ▸ hn, hfits, hhigh, hvalue ▸ hlow⟩

/-! ### The two layouts -/

def fractionText (x : Decimal) : Text :=
  if (x.digitText.drop 1).isEmpty then [] else '.' :: x.digitText.drop 1

def scientific (x : Decimal) : Text :=
  x.signText ++ (x.digitText.take 1 ++ x.fractionText) ++
    (['e', if x.adjusted < 0 then '-' else '+'] ++ Nat.toDigits 10 x.adjusted.natAbs)

theorem short_eq (x : Decimal) (digits : ℕ) : x.short digits =
    if (x.round digits).isZero then ['0']
    else if -7 ≤ (x.round digits).adjusted ∧ (x.round digits).adjusted < 21 then
      (x.round digits).write
    else (x.round digits).scientific := by
  simp only [short, scientific, fractionText, List.append_assoc]

theorem mark_mem_scientific (x : Decimal) : 'e' ∈ x.scientific := by simp [scientific]

theorem positional_of_adjusted (hlow : -7 ≤ x.adjusted) (hhigh : x.adjusted < 21) :
    x.Positional := by
  have hadjusted := x.adjusted_eq
  have hlength := x.length_pos
  have hzeros : maxZeros = 1000 := rfl
  refine ⟨by omega, ?_⟩
  rw [length_digitText]
  omega

theorem write_of_isZero (h : x.isZero = true) : x.write = ['0'] := by
  obtain rfl : x = zero := value_injective ((isZero_iff.mp h).trans value_zero.symm)
  decide

theorem short_eq_write (h : 'e' ∉ x.short digits) :
    x.short digits = (x.round digits).write ∧ (x.round digits).Positional := by
  rw [short_eq] at h ⊢
  split at h
  · next hzero =>
    have hm := value_eq_zero.mp (isZero_iff.mp hzero)
    have hadjusted := (x.round digits).adjusted_eq
    rw [exponent_eq_zero hm, length_eq_one hm] at hadjusted
    rw [if_pos hzero, write_of_isZero hzero]
    exact ⟨rfl, positional_of_adjusted (by omega) (by omega)⟩
  · next hzero =>
    rw [if_neg hzero]
    split at h
    · next hwindow =>
      rw [if_pos hwindow]
      exact ⟨rfl, positional_of_adjusted hwindow.1 hwindow.2⟩
    · exact absurd (mark_mem_scientific _) h

theorem value_round_ne_zero (hd : 0 < digits) (hx : x.value ≠ 0) : (x.round digits).value ≠ 0 :=
  IsRounding.ne_zero_of_le ((round_isRounding x hd).ten_zpow_le_abs hd (le_abs_value hx))

theorem short_ne_zero (hd : 0 < digits) (hx : x.value ≠ 0) : x.short digits ≠ ['0'] := by
  have hround := value_round_ne_zero hd hx
  rw [short_eq, if_neg (mt isZero_iff.mp hround)]
  split
  · next hwindow =>
    obtain ⟨t, hwrite, ht⟩ :=
      exists_magnitude_of_positional (positional_of_adjusted hwindow.1 hwindow.2)
    rw [hwrite, signText]
    split
    · simp
    · rintro rfl
      exact absurd (abs_eq_zero.mp (ht.value.trans (by decide +kernel))) hround
  · intro h
    have hmark := mark_mem_scientific (x.round digits)
    rw [h] at hmark
    exact absurd hmark (by decide)

/-! ### What they spell -/

theorem fractionText_numeral (x : Decimal) :
    IsNumeral (x.digitText.take 1 ++ x.fractionText) ∧
      fractionDigits (x.digitText.take 1 ++ x.fractionText) = x.digitText.drop 1 ∧
      numeralValue (x.digitText.take 1 ++ x.fractionText) =
        x.mantissa.natAbs * 10 ^ (-((x.digitText.drop 1).length : ℤ)) := by
  have hd := x.isDigits_digitText
  unfold fractionText
  split
  · next hempty =>
    -- the only digit is its own numeral
    have hdrop := List.isEmpty_iff.mp hempty
    have htake : x.digitText.take 1 ++ [] = x.digitText := by
      rw [← hdrop, List.take_append_drop]
    rw [htake, hdrop, numeralValue_of_isDigits hd, ofDigitChars_digitText, List.length_nil,
      Nat.cast_zero, neg_zero, zpow_zero, mul_one]
    exact ⟨.integer hd x.digitText_ne_nil, fractionDigits_of_isDigits hd, rfl⟩
  · have hwhole : IsDigits (x.digitText.take 1) := fun c hc => hd c (List.mem_of_mem_take hc)
    have hfraction : IsDigits (x.digitText.drop 1) := fun c hc => hd c (List.mem_of_mem_drop hc)
    refine ⟨.pointed hwhole hfraction ?_, fractionDigits_pointed hwhole _, ?_⟩
    · rw [List.take_append_drop]
      exact x.digitText_ne_nil
    · rw [numeralValue_pointed hwhole, List.take_append_drop, ofDigitChars_digitText]

theorem read?_scientific (hr : x.InRange) (hs : x.Shallow) : read? x.scientific = some x := by
  obtain ⟨hnumeral, hfraction, hvalue⟩ := x.fractionText_numeral
  have hadjusted := x.adjusted_eq
  have hrange := x.inRange_iff_adjusted.mp hr
  have hmax : maxAdjusted = 9000000000000000 := rfl
  have hplaces : ((x.digitText.drop 1).length : ℤ) = x.length - 1 := by
    have hlength := x.length_pos
    rw [List.length_drop, length_digitText]
    omega
  have hlast : x.adjusted - (x.digitText.drop 1).length = x.exponent := by omega
  refine read?_of_spells (n := ⟨x.isNegative, _, x.adjusted⟩)
    (.intro (spellsSign_signText x) hnumeral (spellsExponent_signed x.adjusted)) ⟨?_, ?_⟩ ?_ hr
  · show FitsWord x.adjusted
    constructor <;> omega
  · rw [NumberParts.lastPlace, hfraction, hlast]
    exact fitsWord_exponent hr hs
  · rw [NumberParts.value, hvalue, mul_assoc, mul_assoc, ← ten_zpow_add, neg_add_eq_sub, hlast,
      ← abs_value]
    exact sign_mul_abs_value x

theorem read?_short_of_inRange (hr : (x.round digits).InRange) (hs : (x.round digits).Shallow) :
    read? (x.short digits) = some (x.round digits) := by
  rw [short_eq]
  split
  · next hzero =>
    rw [← write_of_isZero hzero]
    exact read?_write hr hs
  · split
    · exact read?_write hr hs
    · exact read?_scientific hr hs

/-! ### The range -/

theorem inRange_round (hv : |v.adjusted| < maxAdjusted) (hd : 0 < digits) :
    (v.round digits).InRange := by
  obtain ⟨hlow, hhigh⟩ := abs_lt.mp hv
  have hround := round_isRounding v hd
  refine inRange_of_abs ?_ fun hr => hround.ten_zpow_le_abs hd ?_
  · refine (hround.abs_le_ten_zpow (abs_value_lt v)).trans_lt (ten_zpow_lt.mpr ?_)
    omega
  · have hv0 : v.value ≠ 0 := fun h0 => hr (hround.unique (.inl ⟨h0, rfl⟩))
    exact (ten_zpow_le.mpr (by omega)).trans (le_abs_value hv0)

/-- The short form of a decimal that is not at the edge of the range, and whose exponent is a word
of 64 bits, is read back as the rounded decimal, in either layout. If it shows no exponent, its
evaluation with at least as many digits gives the rounded decimal, too. -/
theorem read?_short (hv : v = zero ∨ |v.adjusted| < maxAdjusted) (hs : v.Shallow) (digits : ℕ) :
    read? (v.short digits) = some (v.round digits) ∧
    ('e' ∉ v.short digits → ∀ p : Preferences, digits ≤ p.context.digits →
      p.evaluateText (v.short digits) = .ok (v.round digits)) := by
  have hadjusted : |v.adjusted| < maxAdjusted := by
    rcases hv with rfl | hv
    · decide +kernel
    · exact hv
  have hr : (v.round digits).InRange := by
    rw [round_eq_round_max]
    exact inRange_round hadjusted (Nat.lt_of_lt_of_le Nat.one_pos (le_max_right _ _))
  refine ⟨read?_short_of_inRange hr (hs.round digits), fun hmark p hp => ?_⟩
  obtain ⟨hwrite, hpositional⟩ := short_eq_write hmark
  have hlength : (v.round digits).length ≤ p.context.digits := by
    rw [round_eq_round_max]
    refine (length_round_le v (Nat.lt_of_lt_of_le Nat.one_pos (le_max_right _ _))).trans ?_
    exact max_le hp p.context.positive
  rw [hwrite, evaluateText_write_eq p hr (hs.round digits), if_pos hpositional,
    round_of_length_le hlength]

/-- Thirteen nines are carried to a power of ten, which is laid out otherwise than they are. -/
theorem read?_short_carried :
    let nines : Decimal := ⟨9999999999999, 8, .inr (by decide)⟩
    let small : Decimal := ⟨-12345678901234, -20, .inr (by decide)⟩
    nines.short 12 = "1e+21".toList ∧ read? (nines.short 12) = some ⟨1, 21, .inr (by decide)⟩ ∧
      small.short 12 = "-0.000000123456789012".toList ∧
      Preferences.evaluateText {} (small.short 12) =
        .ok ⟨-123456789012, -18, .inr (by decide)⟩ := by
  intro nines small
  have hnines := (read?_short (v := nines) (.inr (by decide +kernel))
    (by show (-9223372036854775808 : ℤ) ≤ 8; decide) 12).1
  have hsmall := (read?_short (v := small) (.inr (by decide +kernel))
    (by show (-9223372036854775808 : ℤ) ≤ -20; decide) 12).2 (by decide +kernel) {}
    (by decide +kernel)
  refine ⟨by decide +kernel, hnines.trans (by decide +kernel), by decide +kernel,
    hsmall.trans (by decide +kernel)⟩

end Decimal

end DeskCalculator
