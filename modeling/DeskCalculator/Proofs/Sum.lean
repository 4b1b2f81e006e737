import DeskCalculator.Proofs.Addition
import DeskCalculator.Proofs.Evaluation

/-!
# The text of a sum

Two numerals with a plus or a minus between them always have a value, and it is the
visible sum rounded once. Whether it is the rounding of the exact sum depends on
nothing but an eclipsed term.
-/

set_option autoImplicit false

namespace DeskCalculator

open DeskCalculator.Decimal

def RoundAlike (digits : ℕ) (q r : ℚ) : Prop := ∃ s, IsRounding digits q s ∧ IsRounding digits r s

/-- Where one term is eclipsed by the other, it does not matter to the rounding. -/
def Harmless (x y : Decimal) (digits : ℕ) : Prop :=
  (x.Eclipses y digits → RoundAlike digits x.value (x.value + y.value)) ∧
    (y.Eclipses x digits → RoundAlike digits y.value (x.value + y.value))

/-- A rounding of the visible sum rounds the exact sum just if eclipsed terms do not matter. -/
theorem isRounding_add_iff {x y : Decimal} {digits : ℕ} {r : ℚ}
    (h : IsRounding digits (x.visibleSum y digits) r) :
    IsRounding digits (x.value + y.value) r ↔ Harmless x y digits := by
  unfold visibleSum at h
  unfold Harmless
  split_ifs at h with hx hy
  · constructor
    · exact fun hr => ⟨fun _ => ⟨r, h, hr⟩, fun hy => absurd hy hx.not_symm⟩
    · intro hh
      obtain ⟨s, hs, hs'⟩ := hh.1 hx
      rwa [h.unique hs]
  · constructor
    · exact fun hr => ⟨fun hx' => absurd hx' hx, fun _ => ⟨r, h, hr⟩⟩
    · intro hh
      obtain ⟨s, hs, hs'⟩ := hh.2 hy
      rwa [h.unique hs]
  · exact iff_of_true h ⟨fun hx' => absurd hx' hx, fun hy' => absurd hy' hy⟩

theorem Expr.readAll_binary {a b : Text} (ha : IsNumeral a) (hb : IsNumeral b) (op : BinaryOp) :
    Token.readAll (a ++ op.token.text ++ b) = .ok [.number a, op.token, .number b] := by
  have hb' : Scans b [.number b] [] :=
    @Scans.token (.number b) _ hb (delimits_nil.endsBefore _)
  have ha' : Scans a [.number a] (op.token.text ++ (b ++ [])) :=
    @Scans.token (.number a) _ ha ((delimits_operator op _).endsBefore _)
  have hscan := (ha'.append (scans_operator op _)).append hb'
  unfold Scans at hscan
  rw [List.append_nil, Token.readAll] at hscan
  rw [hscan]
  rfl

theorem Expr.read_sum {a b : Text} (ha : IsNumeral a) (hb : IsNumeral b) {op : BinaryOp}
    (hop : op.level = .sum) :
    read (a ++ op.token.text ++ b) = .ok (.binary op (.literal a) (.literal b)) := by
  rw [read, readAll_binary ha hb op]
  exact ofTokens_of_derives (.sum hop (derives_of_atom (by simp) (.number a))
    (derives_of_atom (by simp) (.number b)))

theorem Preferences.minPrecision_le (p : Preferences) :
    minPrecision.toNat ≤ p.effectivePrecision := by
  rw [effectivePrecision, UInt32.toNat_max]
  exact le_max_right _ _

theorem Preferences.digits_context (p : Preferences) : p.context.digits = p.effectivePrecision :=
  max_eq_left (Nat.le_trans (by decide) p.minPrecision_le)

structure Moderate (x : Decimal) : Prop where
  small : |x.value| < 10 ^ (maxAdjusted - 1)
  place : ∃ m : ℤ, x.value = m * 10 ^ (-maxAdjusted)

theorem Moderate.neg {x : Decimal} (h : Moderate x) : Moderate (-x) where
  small := by
    rw [value_neg, abs_neg]
    exact h.small
  place := by
    obtain ⟨m, hm⟩ := h.place
    exact ⟨-m, by rw [value_neg, hm, Int.cast_neg, neg_mul]⟩

theorem moderate_of_isNumeral {t : Text} (h : IsNumeral t) (hl : (t.length : ℤ) < maxAdjusted)
    {x : Decimal} (hx : x.value = numeralValue t) : Moderate x where
  small := by
    rw [hx]
    exact (abs_numeralValue_lt h).trans_le (ten_zpow_le.mpr (by omega))
  place := by
    rw [hx]
    exact exists_numeralValue_eq (by omega)

theorem Moderate.bounded_add {x y r : Decimal} (hx : Moderate x) (hy : Moderate y) {digits : ℕ}
    (hd : 0 < digits) (h : IsRounding digits (x.visibleSum y digits) r.value) :
    r.bounded? = some r := by
  have hpow := ten_zpow_eq_ten_mul maxAdjusted
  have hpos := ten_zpow_pos (maxAdjusted - 1)
  obtain ⟨m, hm⟩ := hx.place
  obtain ⟨n, hn⟩ := hy.place
  have hsmall : |x.visibleSum y digits| < 10 ^ maxAdjusted := by
    have htri := abs_add_le x.value y.value
    have h1 := hx.small
    have h2 := hy.small
    rw [visibleSum, hpow]
    split_ifs <;> linarith
  have hplace : ∃ k : ℤ, x.visibleSum y digits = k * 10 ^ (-maxAdjusted) := by
    rw [visibleSum]
    split_ifs
    · exact ⟨m, hm⟩
    · exact ⟨n, hn⟩
    · exact ⟨m + n, by rw [hm, hn, Int.cast_add, add_mul]⟩
  obtain ⟨k, hk⟩ := hplace
  refine bounded_of_isRounding hd h hsmall ?_
  rw [hk]
  exact ten_zpow_le_abs_mul

theorem exists_evaluateText_sum (p : Preferences) (op : BinaryOp) {a b : Text} (ha : IsNumeral a)
    (hb : IsNumeral b) (hla : (a.length : ℤ) < maxAdjusted) (hlb : (b.length : ℤ) < maxAdjusted)
    (hop : op.level = .sum) {x y z : Decimal} (hx : x.value = numeralValue a)
    (hy : y.value = numeralValue b) (hz : Moderate z)
    (happly : op.apply x y p.context = orOutOfRange (x.add z p.context))
    (h : Alignable x z p.context) : ∃ r : Decimal,
      p.evaluateText (a ++ op.token.text ++ b) = .ok r ∧
        IsRounding p.effectivePrecision (x.visibleSum z p.effectivePrecision) r.value := by
  obtain ⟨x', hreadx, hvalx⟩ := read_of_isNumeral ha hla.le
  obtain ⟨y', hready, hvaly⟩ := read_of_isNumeral hb hlb.le
  obtain rfl := value_injective (hvalx.trans hx.symm)
  obtain rfl := value_injective (hvaly.trans hy.symm)
  obtain ⟨r, hadd, hlen, hr⟩ := add_eq h
  have hbound := (moderate_of_isNumeral ha hla hx).bounded_add hz p.context.positive hr
  have heval : (Expr.binary op (.literal a) (.literal b)).eval p.angleUnit p.context = .ok r := by
    rw [Expr.eval, Expr.eval, Expr.eval, hreadx, hready]
    show op.apply _ _ _ = _
    rw [happly, hadd, hbound]
    rfl
  refine ⟨r, ?_, p.digits_context ▸ hr⟩
  rw [p.evaluateText_eq, Expr.read_sum ha hb hop]
  show ((Expr.binary op (.literal a) (.literal b)).eval p.angleUnit p.context).map _ = _
  rw [heval]
  exact congrArg Except.ok (round_of_length_le hlen)

/-- A sum and a difference of two numerals always have a value: the visible sum rounded once,
half to even. It is the rounding of the exact result just if an eclipsed term does not
matter to that. -/
theorem evaluateText_sum (p : Preferences) {a b : Text} (ha : IsNumeral a) (hb : IsNumeral b)
    (hla : (a.length : ℤ) < maxAdjusted) (hlb : (b.length : ℤ) < maxAdjusted)
    {x y : Decimal} (hx : x.value = numeralValue a) (hy : y.value = numeralValue b)
    (h : Alignable x y p.context) :
    (∃ r : Decimal, p.evaluateText (a ++ ['+'] ++ b) = .ok r ∧
      IsRounding p.effectivePrecision (x.visibleSum y p.effectivePrecision) r.value ∧
      (IsRounding p.effectivePrecision (numeralValue a + numeralValue b) r.value ↔
        Harmless x y p.effectivePrecision)) ∧
    ∃ r : Decimal, p.evaluateText (a ++ ['-'] ++ b) = .ok r ∧
      IsRounding p.effectivePrecision (x.visibleSum (-y) p.effectivePrecision) r.value ∧
      (IsRounding p.effectivePrecision (numeralValue a - numeralValue b) r.value ↔
        Harmless x (-y) p.effectivePrecision) := by
  have hmod := moderate_of_isNumeral hb hlb hy
  constructor
  · obtain ⟨r, hr, hround⟩ := exists_evaluateText_sum p .add ha hb hla hlb rfl hx hy hmod rfl h
    refine ⟨r, hr, hround, ?_⟩
    rw [← hx, ← hy]
    exact isRounding_add_iff hround
  · obtain ⟨r, hr, hround⟩ := exists_evaluateText_sum p .sub ha hb hla hlb rfl hx hy hmod.neg
      rfl h.neg
    refine ⟨r, hr, hround, ?_⟩
    rw [← hx, ← hy, sub_eq_add_neg, ← value_neg]
    exact isRounding_add_iff hround

theorem evaluateText_sum_eclipsed : ∃ r : Decimal,
    ({} : Preferences).evaluateText
      "1.00000000000000000000000000049999999+0.0000000000000000000000000000009".toList = .ok r ∧
    ¬ IsRounding 28 (1.00000000000000000000000000049999999 + 0.0000000000000000000000000000009)
      r.value := by
  let x : Decimal := ⟨100000000000000000000000000049999999, -35, Or.inr (by decide)⟩
  let y : Decimal := ⟨9, -31, Or.inr (by decide)⟩
  have ha : IsNumeral "1.00000000000000000000000000049999999".toList :=
    @IsNumeral.pointed "1".toList "00000000000000000000000000049999999".toList
      (List.all_eq_true.mp rfl) (List.all_eq_true.mp rfl) (by decide)
  have hb : IsNumeral "0.0000000000000000000000000000009".toList :=
    @IsNumeral.pointed "0".toList "0000000000000000000000000000009".toList
      (List.all_eq_true.mp rfl) (List.all_eq_true.mp rfl) (by decide)
  have hx : x.value = numeralValue "1.00000000000000000000000000049999999".toList := by
    show x.value = ((100000000000000000000000000049999999 : ℕ) : ℚ) * 10 ^ (-((35 : ℕ) : ℤ))
    rfl
  have hy : y.value = numeralValue "0.0000000000000000000000000000009".toList := by
    show y.value = ((9 : ℕ) : ℚ) * 10 ^ (-((31 : ℕ) : ℤ))
    rfl
  have hxl : x.length = 36 := (Natural.digitCount_eq_iff (by decide)).mpr (by decide)
  have hyl : y.length = 1 := (Natural.digitCount_eq_iff (by decide)).mpr (by decide)
  have hal : Alignable x y ({} : Preferences).context := by
    apply alignable_of_lt
    rw [hxl, hyl]
    decide
  have hxv : x.value = 1.00000000000000000000000000049999999 := by norm_num [x, value]
  have hyv : y.value = 0.0000000000000000000000000000009 := by norm_num [y, value]
  obtain ⟨r, hr, -, hiff⟩ := (evaluateText_sum {} ha hb (by decide) (by decide) hx hy hal).1
  rw [← hx, ← hy, hxv, hyv] at hiff
  refine ⟨r, hr, fun hround => ?_⟩
  -- one more in the last place of the sum, and not of the larger term
  have hdown : IsRounding 28 x.value (10 ^ 27 * 10 ^ (-27 : ℤ)) := by
    refine Or.inr ⟨0, 10 ^ 27, ?_, ?_, IsNearestEven.of_lt ?_, by norm_num⟩ <;>
      rw [hxv] <;> norm_num [abs_of_pos, abs_lt]
  have hup : IsRounding 28 (x.value + y.value) ((10 ^ 27 + 1) * 10 ^ (-27 : ℤ)) := by
    refine Or.inr ⟨0, 10 ^ 27 + 1, ?_, ?_, IsNearestEven.of_lt ?_, by norm_num⟩ <;>
      rw [hxv, hyv] <;> norm_num [abs_of_pos, abs_lt]
  have heclipses : x.Eclipses y 28 := by
    refine ⟨by rw [hxl]; decide, ?_⟩
    rw [adjusted, adjusted, hxl, hyl]
    decide
  obtain ⟨s, hs, hs'⟩ := (hiff.mp hround).1 heclipses
  have h := (hdown.unique hs).trans (hs'.unique hup)
  norm_num at h

end DeskCalculator
