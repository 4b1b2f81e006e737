import DeskCalculator.Proofs.Evaluation
import DeskCalculator.Proofs.Range

/-!
# Written numbers as expressions

The full form of a decimal is positional unless that takes too many zeros, and then it
has an exponent. A positional form is an expression whose value is the decimal, rounded to
the digits in force. The grammar knows no exponents: in the other form the mark `e` is read
as the constant, which cannot stand after a number.
-/

set_option autoImplicit false

namespace DeskCalculator

open DeskCalculator.Natural

namespace Decimal

/-- The full form shows no exponent. -/
def Positional (x : Decimal) : Prop :=
  x.exponent ≤ maxZeros ∧ -x.exponent ≤ x.digitText.length + maxZeros

instance (x : Decimal) : Decidable x.Positional := inferInstanceAs (Decidable (_ ∧ _))

end Decimal

/-! ### Digits -/

theorem isDigits_toDigits (n : ℕ) : IsDigits (Nat.toDigits 10 n) := fun _ hc =>
  Nat.isDigit_of_mem_toDigits (by decide) (by decide) hc

theorem isDigits_zeros (n : ℕ) : IsDigits (Decimal.zeros n) := by
  intro c hc
  rw [(List.mem_replicate.mp hc).2]
  rfl

theorem IsDigits.append {t u : Text} (ht : IsDigits t) (hu : IsDigits u) : IsDigits (t ++ u) := by
  intro c hc
  rcases List.mem_append.mp hc with hc | hc
  · exact ht c hc
  · exact hu c hc

theorem numeralValue_of_isDigits {t : Text} (h : IsDigits t) :
    numeralValue t = (Nat.ofDigitChars 10 t 0 : ℕ) := by
  rw [numeralValue, wholeDigits_of_isDigits h, fractionDigits_of_isDigits h, List.append_nil,
    List.length_nil, Nat.cast_zero, neg_zero, zpow_zero, mul_one]

theorem numeralValue_pointed {whole : Text} (h : IsDigits whole) (fraction : Text) :
    numeralValue (whole ++ '.' :: fraction) =
      (Nat.ofDigitChars 10 (whole ++ fraction) 0 : ℕ) * 10 ^ (-(fraction.length : ℤ)) := by
  rw [numeralValue, wholeDigits_pointed h, fractionDigits_pointed h]

namespace Decimal

variable (x : Decimal)

theorem isDigits_digitText : IsDigits x.digitText := isDigits_toDigits _

theorem digitText_ne_nil : x.digitText ≠ [] := Nat.toDigits_ne_nil

theorem ofDigitChars_digitText : Nat.ofDigitChars 10 x.digitText 0 = x.mantissa.natAbs :=
  Nat.ofDigitChars_toDigits (by decide) (by decide)

theorem ofDigitChars_zeros_digitText (n : ℕ) :
    Nat.ofDigitChars 10 (zeros n ++ x.digitText) 0 = x.mantissa.natAbs := by
  rw [Nat.ofDigitChars_append, zeros, Nat.ofDigitChars_replicate_zero, mul_zero,
    ofDigitChars_digitText]

def exponentSign : SignOp := if x.exponent < 0 then .minus else .plus

/-! ### The two kinds of form -/

/-- A numeral for the magnitude of `x`, with the places after the point that its exponent takes. -/
structure IsMagnitude (x : Decimal) (t : Text) : Prop where
  isNumeral : IsNumeral t
  value : |x.value| = numeralValue t
  places : ((fractionDigits t).length : ℤ) = max (-x.exponent) 0

variable {x}

theorem isMagnitude_padded (he : 0 ≤ x.exponent) :
    x.IsMagnitude (x.digitText ++ zeros x.exponent.toNat) := by
  have hdigits := x.isDigits_digitText.append (isDigits_zeros x.exponent.toNat)
  have hpow : (10 : ℚ) ^ x.exponent = 10 ^ x.exponent.toNat := by
    rw [← zpow_natCast, Int.toNat_of_nonneg he]
  refine ⟨.integer hdigits (by simp [digitText_ne_nil]), ?_, ?_⟩
  · rw [numeralValue_of_isDigits hdigits, Nat.ofDigitChars_append, zeros,
      Nat.ofDigitChars_replicate_zero, ofDigitChars_digitText, abs_value, hpow]
    push_cast
    ring
  · rw [fractionDigits_of_isDigits hdigits, max_eq_right (by omega)]
    rfl

theorem isMagnitude_pointed {whole fraction : Text} (hw : IsDigits whole) (hf : IsDigits fraction)
    (hne : whole ++ fraction ≠ []) (he : (fraction.length : ℤ) = -x.exponent)
    (hd : Nat.ofDigitChars 10 (whole ++ fraction) 0 = x.mantissa.natAbs) :
    x.IsMagnitude (whole ++ '.' :: fraction) := by
  refine ⟨.pointed hw hf hne, ?_, ?_⟩
  · rw [numeralValue_pointed hw, hd, he, neg_neg, abs_value]
  · rw [fractionDigits_pointed hw, he, max_eq_left (by omega)]

theorem exists_magnitude_of_positional (h : x.Positional) :
    ∃ t, x.write = x.signText ++ t ∧ x.IsMagnitude t := by
  unfold write
  simp only
  split
  · next he =>
    rw [if_neg (not_lt.mpr h.1)]
    exact ⟨_, rfl, isMagnitude_padded he⟩
  · next he =>
    have hplaces : ((-x.exponent).toNat : ℤ) = -x.exponent := Int.toNat_of_nonneg (by omega)
    have hmany := h.2
    rw [if_neg (by omega)]
    split
    · next hlt =>
      -- the point stands among the digits
      have hwhole : IsDigits (x.digitText.take (x.digitText.length - (-x.exponent).toNat)) :=
        fun c hc => x.isDigits_digitText c (List.mem_of_mem_take hc)
      have hfraction : IsDigits (x.digitText.drop (x.digitText.length - (-x.exponent).toNat)) :=
        fun c hc => x.isDigits_digitText c (List.mem_of_mem_drop hc)
      refine ⟨_, by rw [List.append_assoc]; rfl, isMagnitude_pointed hwhole hfraction ?_ ?_ ?_⟩
      · rw [List.take_append_drop]
        exact x.digitText_ne_nil
      · rw [List.length_drop]
        omega
      · rw [List.take_append_drop, ofDigitChars_digitText]
    · next hge =>
      -- and here it stands before them, with zeros after it
      refine ⟨_, by rw [List.append_assoc]; rfl, isMagnitude_pointed (isDigits_zeros 1)
        ((isDigits_zeros ((-x.exponent).toNat - x.digitText.length)).append x.isDigits_digitText)
        (List.cons_ne_nil _ _) ?_ ?_⟩
      · rw [List.length_append, zeros, List.length_replicate]
        omega
      · exact x.ofDigitChars_zeros_digitText ((-x.exponent).toNat - x.digitText.length + 1)

theorem write_of_not_positional (h : ¬x.Positional) : x.write = x.signText ++
    (x.digitText ++ 'e' :: x.exponentSign.token.text ++ Nat.toDigits 10 x.exponent.natAbs) := by
  unfold write exponentSign
  simp only
  split
  · next he =>
    have hlarge : (maxZeros : ℤ) < x.exponent := by
      by_contra hle
      exact h ⟨not_lt.mp hle, by omega⟩
    rw [if_pos hlarge, integerText, if_neg (not_lt.mpr he), if_neg (not_lt.mpr he)]
    simp [SignOp.token, Token.text]
  · next he =>
    have hsmall : x.digitText.length + maxZeros < (-x.exponent).toNat := by
      by_contra hle
      exact h ⟨by omega, by omega⟩
    rw [if_pos hsmall, integerText, if_pos (not_le.mp he), if_pos (not_le.mp he)]
    simp [SignOp.token, Token.text]

/-! ### Forms as expressions -/

theorem IsMagnitude.read {t : Text} (h : x.IsMagnitude t) (hr : x.InRange) (hs : x.Shallow) :
    read? t = some x.abs := by
  refine read_of_value h.isNumeral ?_ ((value_abs x).trans h.value) (if_pos (inRange_abs hr))
  have hplaces := h.places
  have hlow : -9223372036854775808 ≤ x.exponent := hs
  constructor <;> omega

theorem readAll_of_isNumeral {t : Text} (h : IsNumeral t) :
    Token.readAll t = .ok [.number t] := by
  have hts := @Token.readAll_text_append (.number t) [] h (fun c hc => nomatch hc)
  rwa [List.append_nil, Token.readAll] at hts

theorem readAll_marked {m u : Text} {mark : Char} {ts : List Token} (hm : IsNumeral m)
    (hmark : isExponentMark mark = true) (hu : ∀ c ∈ u.head?, Token.isWordCharacter c = false)
    (h : Token.readAll u = .ok ts) :
    Token.readAll (m ++ mark :: u) = .ok (.number m :: .constant .e :: ts) := by
  have hword : Token.readAll (mark :: u) = .ok (.constant .e :: ts) := by
    have hmark : mark = 'e' ∨ mark = 'E' := by simpa [isExponentMark] using hmark
    rw [Token.readAll_word (by rcases hmark with rfl | rfl <;> rfl), takeWhile_eq_nil hu,
      dropWhile_eq_self hu, h]
    rcases hmark with rfl | rfl <;> rfl
  have hnumber := @Token.readAll_text_append (.number m) (mark :: u) hm (by
    intro c hc
    obtain rfl : mark = c := by simpa using hc
    exact ⟨Bool.eq_false_iff.mpr fun hd => by simp [not_exponentMark_of_isDigit hd] at hmark,
      by rintro rfl; cases hmark⟩)
  rw [hword] at hnumber
  exact hnumber

theorem readAll_exponent {m n : Text} (hm : IsNumeral m) (hn : IsNumeral n) (op : SignOp) :
    Token.readAll (m ++ 'e' :: op.token.text ++ n) =
      .ok [.number m, .constant .e, op.token, .number n] := by
  have hsign := Expr.scans_sign op n
  rw [Expr.Scans, readAll_of_isNumeral hn] at hsign
  rw [List.append_assoc]
  refine readAll_marked hm rfl (fun c hc => ?_) hsign
  cases op <;> (cases hc; rfl)

theorem readAll_signed (negative : Bool) {u : Text} {ts : List Token}
    (h : Token.readAll u = .ok ts) :
    Token.readAll ((if negative then ['-'] else []) ++ u) =
      .ok (if negative then .minus :: ts else ts) := by
  split
  · rw [List.singleton_append, Token.readAll_symbol rfl, h]
    rfl
  · exact h

theorem exists_readAll_write (x : Decimal) : ∃ ts, Token.readAll x.write = .ok ts := by
  by_cases h : x.Positional
  · obtain ⟨t, hwrite, ht⟩ := exists_magnitude_of_positional h
    rw [hwrite]
    exact ⟨_, readAll_signed _ (readAll_of_isNumeral ht.isNumeral)⟩
  · rw [write_of_not_positional h]
    exact ⟨_, readAll_signed _ (readAll_exponent (.integer x.isDigits_digitText x.digitText_ne_nil)
      (.integer (isDigits_toDigits x.exponent.natAbs) Nat.toDigits_ne_nil) x.exponentSign)⟩

theorem derives_signed (negative : Bool) {token : Token} {l : Expr}
    (h : Derives .atom [token] l) :
    Derives .sum (if negative then [.minus, token] else [token])
      (if negative then .signed .minus l else l) := by
  split
  · exact .sumOfProduct (.productOfPower (.powerOfSigned
      (.signed .minus (Expr.derives_of_atom (by simp) h))))
  · exact Expr.derives_of_atom (by simp) h

theorem exists_read_of_isNumeral (negative : Bool) {m : Text} (hm : IsNumeral m) {y : Decimal}
    (hy : read? m = some y) : ∃ a, Expr.read ((if negative then ['-'] else []) ++ m) = .ok a ∧
      ∀ unit c, a.eval unit c = .ok (if negative then -y else y) := by
  refine ⟨if negative then .signed .minus (.literal m) else .literal m, ?_, fun unit c => ?_⟩
  · rw [Expr.read, readAll_signed negative (readAll_of_isNumeral hm)]
    exact ofTokens_of_derives (derives_signed negative (.number m))
  · have hliteral : (Expr.literal m).eval unit c = .ok y := by rw [Expr.eval, hy]
    split
    · rw [Expr.eval, hliteral]
      rfl
    · exact hliteral

theorem read_of_constant_after_numeral (negative : Bool) {m u : Text} {k : Constant}
    {ts : List Token} (h : Token.readAll u = .ok (.number m :: .constant k :: ts)) :
    Expr.read ((if negative then ['-'] else []) ++ u) = .error (.trailingToken k.name) := by
  have hstop : Stops .sum (Token.constant k :: ts) := by simp [stops_cons, Level.continuation]
  have htrailing := ofTokens_of_trailing (derives_signed negative (.number m)) hstop
  rw [Expr.read, readAll_signed negative h]
  show Expr.ofTokens _ = _
  rw [← show Token.text (.constant k) = k.name from rfl, ← htrailing]
  split <;> rfl

theorem exists_read_of_positional (h : x.Positional) (hr : x.InRange) (hs : x.Shallow) :
    ∃ a, Expr.read x.write = .ok a ∧ ∀ unit c, a.eval unit c = .ok x := by
  obtain ⟨t, hwrite, ht⟩ := exists_magnitude_of_positional h
  have hsign : (if x.isNegative then -x.abs else x.abs) = x := by
    split
    · next hneg => exact abs_of_isNegative hneg
    · next hneg => exact abs_of_not_isNegative hneg
  obtain ⟨a, hread, heval⟩ := exists_read_of_isNumeral x.isNegative ht.isNumeral (ht.read hr hs)
  exact ⟨a, hwrite ▸ hread, fun unit c => by rw [heval, hsign]⟩

theorem read_of_not_positional (h : ¬x.Positional) :
    Expr.read x.write = .error (.trailingToken ['e']) := by
  rw [write_of_not_positional h]
  exact read_of_constant_after_numeral x.isNegative
    (readAll_exponent (.integer x.isDigits_digitText x.digitText_ne_nil)
      (.integer (isDigits_toDigits x.exponent.natAbs) Nat.toDigits_ne_nil) x.exponentSign)

/-- Evaluated as a text, the full form of a decimal gives the decimal, rounded to the digits in
force, or it is refused at the mark of its exponent. -/
theorem evaluateText_write_eq (p : Preferences) (hr : x.InRange) (hs : x.Shallow) :
    p.evaluateText x.write = if x.Positional then .ok (x.round p.context.digits)
      else .error (.trailingToken ['e']) := by
  rw [p.evaluateText_eq]
  split
  · next h =>
    obtain ⟨a, hread, heval⟩ := exists_read_of_positional h hr hs
    rw [hread]
    show (a.eval p.angleUnit p.context).map _ = _
    rw [heval]
    rfl
  · next h =>
    rw [read_of_not_positional h]
    rfl

end Decimal

end DeskCalculator
