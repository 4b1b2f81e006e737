import DeskCalculator.Proofs.ArithmeticSteps
import DeskCalculator.Proofs.Quotient
import DeskCalculator.Proofs.Sum

/-!
# The text of a quotient

Two numerals with a division between them have their quotient for a value, rounded once, as long as
the zeros behind the dividend are counted in 32 bits. All other powers of ten that a division asks
for are shorter. Beyond that the power of ten is a much smaller one and so is the value: all digits
of it that would be kept lie below those of the quotient.
-/

set_option autoImplicit false

namespace DeskCalculator

open DeskCalculator.Natural DeskCalculator.Decimal DeskCalculator.Steps

/-! ### Powers of ten that are not too long -/

namespace Natural

theorem trailingZeros_le_of_dvd {n k : ℕ} (h : ¬tens (k + 1) ∣ n) : trailingZeros n ≤ k := by
  by_contra hlt
  obtain ⟨d, hd⟩ := Nat.exists_eq_add_of_lt (not_le.mp hlt)
  refine h (Dvd.dvd.trans ⟨tens d, ?_⟩ (tens_trailingZeros_dvd n))
  rw [hd, ← tens_add]
  congr 1
  omega

theorem trailingZeros_le {n k : ℕ} (h : n ≤ tens k) : trailingZeros n ≤ k := by
  by_cases hn : n = 0
  · rw [hn, trailingZeros, if_pos rfl]
    exact Nat.zero_le k
  · have hle := Nat.le_of_dvd (Nat.pos_of_ne_zero hn) (tens_trailingZeros_dvd n)
    by_contra hlt
    exact absurd (tens_lt_tens_iff.mpr (not_le.mp hlt)) (by omega)

end Natural

namespace Decimal

variable {x y : Decimal} {c : Context} {m e : ℤ}

theorem ofScaledSteps_ne_longPower (h : trailingZeros m.natAbs < UInt32.size) :
    ofScaledSteps m e ≠ .error .longPower := by
  unfold ofScaledSteps
  split
  · exact ok_ne_longPower _
  · refine bind_ne_longPower (tenTo_ne_longPower h) fun _ _ => ?_
    exact bind_ne_longPower (quotient_ne_longPower _ _) fun _ _ => ok_ne_longPower _

theorem roundSteps_ne_longPower (hx : x.length < c.digits + UInt32.size)
    (hc : c.digits < UInt32.size) : roundSteps x c.digits ≠ .error .longPower := by
  have hkept : max c.digits 1 = c.digits := max_eq_left c.positive
  unfold roundSteps
  simp only [hkept]
  split
  · exact ok_ne_longPower _
  refine bind_ne_longPower (takeAway_ne_longPower _ _) fun ⟨removed, hlength⟩ _ => ?_
  have hremoved : x.length = c.digits + removed := hkept ▸ hlength
  have hshort : removed < UInt32.size := by omega
  refine bind_ne_longPower (tenTo_ne_longPower hshort) fun ⟨power, hpower⟩ _ => ?_
  refine bind_ne_longPower (quotient_ne_longPower _ _) fun ⟨q, hq⟩ _ => ?_
  refine bind_ne_longPower (remainder_ne_longPower _ _) fun ⟨r, hr⟩ _ => ?_
  refine bind_ne_longPower (remainder_ne_longPower _ _) fun ⟨parity, hparity⟩ _ => ?_
  refine ofScaledSteps_ne_longPower (lt_of_le_of_lt (trailingZeros_le (k := c.digits) ?_) hc)
  subst hpower hq hr hparity
  have hle : halfEven x.mantissa.natAbs (tens removed) ≤ tens c.digits := by
    apply halfEven_le
    rw [← tens_add, Nat.add_comm, ← hremoved]
    exact lt_tens_digitCount _
  simp only [← halfEven_eq]
  split_ifs
  · rwa [Int.natAbs_neg, Int.natAbs_natCast]
  · rwa [Int.natAbs_natCast]

theorem finishSteps_ne_longPower {n : ℕ} (hm : m.natAbs = n) (hn : trailingZeros n < UInt32.size)
    (hlength : digitCount n < c.digits + UInt32.size) (hc : c.digits < UInt32.size) :
    finishSteps m e c ≠ .error .longPower := by
  subst hm
  have hshort := ofScaledSteps_ne_longPower (e := e) hn
  refine bind_ne_longPower hshort fun x hx => ?_
  obtain rfl : x = ofScaled m e := Except.ok.inj (hx.symm.trans (realizes_ofScaled m e hshort))
  refine bind_ne_longPower (roundSteps_ne_longPower ?_ hc) fun _ _ => within_ne_longPower _
  exact (length_ofScaled_le e (digitCount_pos _) (lt_tens_digitCount _).le).trans_lt hlength

theorem digitCount_quotient_le (hy : 0 < y.mantissa.natAbs) {zeros : ℕ}
    (hzeros : zeros = c.digits + 2 + y.length - x.length) :
    digitCount (x.mantissa.natAbs * tens zeros / y.mantissa.natAbs) ≤
      max (c.digits + 3) x.length := by
  have hlx : 0 < x.length := x.length_pos
  have hly : 0 < y.length := y.length_pos
  rw [digitCount_le_iff (by omega), Nat.div_lt_iff_lt_mul hy]
  calc x.mantissa.natAbs * tens zeros
      < tens x.length * tens zeros :=
        Nat.mul_lt_mul_of_pos_right (lt_tens_digitCount _) (tens_pos _)
    _ = tens (x.length + zeros) := (tens_add _ _).symm
    _ ≤ tens (max (c.digits + 3) x.length + (y.length - 1)) := tens_le_tens (by omega)
    _ = tens (max (c.digits + 3) x.length) * tens (y.length - 1) := tens_add _ _
    _ ≤ tens (max (c.digits + 3) x.length) * y.mantissa.natAbs :=
        Nat.mul_le_mul_left _ (tens_digitCount_le hy.ne')

theorem trailingZeros_quotient_le (hx : x.mantissa.natAbs ≠ 0) {zeros d : ℕ}
    (hrem : x.mantissa.natAbs * tens zeros % d = 0) :
    trailingZeros (x.mantissa.natAbs * tens zeros / d) ≤ zeros := by
  refine trailingZeros_le_of_dvd fun hdvd => ?_
  obtain ⟨k, hk⟩ := hdvd.mul_right d
  rw [Nat.div_mul_cancel (Nat.dvd_of_mod_eq_zero hrem), tens_succ, Nat.mul_assoc, Nat.mul_comm]
    at hk
  have hten : 10 ∣ x.mantissa.natAbs := ⟨k, Nat.eq_of_mul_eq_mul_left (tens_pos zeros) hk⟩
  rcases x.canonical with ⟨hm, -⟩ | hm
  · exact hx (Int.natAbs_eq_zero.mpr hm)
  · exact hm (Int.natCast_dvd.mpr hten)

theorem trailingZeros_witness (q : ℕ) : trailingZeros (witness q) = 0 := by
  refine Nat.le_zero.mp (trailingZeros_le_of_dvd fun hdvd => ?_)
  have hten : 10 ∣ witness q := hdvd
  rw [witness] at hten
  omega

theorem digitCount_witness_le (q : ℕ) : digitCount (witness q) ≤ digitCount q + 1 := by
  have hlt := lt_tens_digitCount q
  rw [digitCount_le_iff (Nat.succ_pos _), tens_succ, witness]
  omega

theorem divSteps_eq_longPower_iff (hx : x.value ≠ 0) (hy : y.value ≠ 0)
    (hxl : x.length < UInt32.size) (hc : c.digits < UInt32.size) :
    divSteps x y c = .error .longPower ↔ UInt32.size ≤ c.digits + 2 + y.length - x.length := by
  have hx' : x.mantissa.natAbs ≠ 0 := (natAbs_mantissa_pos hx).ne'
  have hy' : 0 < y.mantissa.natAbs := natAbs_mantissa_pos hy
  obtain ⟨zeros, hzeros⟩ : ∃ zeros, zeros = c.digits + 2 + y.length - x.length := ⟨_, rfl⟩
  have hshift : (zeros : ℤ) = max (c.digits + 2 + y.length - x.length : ℤ) 0 := by omega
  rw [divSteps, if_neg (fun h => hy (isZero_iff.mp h)), if_neg (fun h => hx (isZero_iff.mp h)),
    toSize_eq hshift, ok_bind, ← hzeros]
  constructor
  · intro hlong
    by_contra hzeros'
    refine absurd hlong ?_
    refine bind_ne_longPower (tenTo_ne_longPower (not_le.mp hzeros')) fun ⟨power, hpower⟩ _ => ?_
    refine bind_ne_longPower (quotient_ne_longPower _ _) fun ⟨q, hq⟩ _ => ?_
    refine bind_ne_longPower (remainder_ne_longPower _ _) fun ⟨r, hr⟩ _ => ?_
    subst hpower hq hr
    have hsign : (if x.isNegative = y.isNegative then (1 : ℤ) else -1).natAbs = 1 := by
      split_ifs <;> rfl
    have hlength := digitCount_quotient_le (x := x) hy' hzeros
    simp only [← Int.natCast_mul, ← Int.ofNat_tdiv, ← Int.ofNat_tmod, Int.natCast_eq_zero]
    split
    · next hrem =>
      have htrailing := trailingZeros_quotient_le hx' hrem
      refine finishSteps_ne_longPower ?_ (by omega) (hlength.trans_lt ?_) hc
      · rw [Int.natAbs_mul, hsign, Nat.one_mul, Int.natAbs_natCast]
      · have hsize : 3 < UInt32.size := by decide
        have hdigits := c.positive
        omega
    · next hrem =>
      have hwitness := digitCount_witness_le (x.mantissa.natAbs * tens zeros / y.mantissa.natAbs)
      refine finishSteps_ne_longPower ?_ (trailingZeros_witness _ ▸ by decide)
        (hwitness.trans_lt ?_) hc
      · rw [Int.natAbs_mul, hsign, Nat.one_mul]
        rfl
      · have hsize : 4 < UInt32.size := by decide
        have hdigits := c.positive
        omega
  · intro hlong
    have hpower : tenTo zeros = .error .longPower := if_neg (not_lt.mpr hlong)
    show tenTo zeros >>= _ = _
    rw [hpower]
    rfl

/-! ### A power of ten that is too long -/

theorem Rounds.exists_le {q : ℚ} {o : Option Decimal} (h : Rounds c q o)
    (hq : |q| < 10 ^ maxAdjusted) : ∃ v : Decimal, o = some v ∧ |v.value| ≤ 2 * |q| := by
  obtain ⟨r, -, hr, rfl⟩ := h
  have hlt : |r.value| < 10 ^ (maxAdjusted + 1) :=
    (hr.abs_le_ten_zpow hq).trans_lt (ten_zpow_lt.mpr (by omega))
  by_cases hlow : |r.value| < 10 ^ (-maxAdjusted)
  · refine ⟨zero, bounded?_eq_some_iff.mpr ⟨hlt, by rw [if_pos hlow, value_zero]⟩, ?_⟩
    rw [value_zero, abs_zero]
    positivity
  · refine ⟨r, bounded?_eq_some_iff.mpr ⟨hlt, by rw [if_neg hlow]⟩, ?_⟩
    have hdigits := c.positive
    have hunit : (10 : ℚ) ^ (1 - (c.digits : ℤ)) ≤ 1 :=
      zpow_le_one_of_nonpos₀ (by norm_num) (by omega)
    have hnear := hr.abs_sub_le_mul
    have htriangle := abs_sub_abs_le_abs_sub r.value q
    rw [abs_sub_comm] at htriangle
    nlinarith [abs_nonneg q]

theorem abs_sign (p : Prop) [Decidable p] : |((if p then 1 else -1 : ℤ) : ℚ)| = 1 := by
  split_ifs <;> simp

theorem abs_value_div_value (hy : y.value ≠ 0) (zeros : ℕ) :
    |x.value / y.value| = (x.mantissa.natAbs * tens zeros : ℕ) / y.mantissa.natAbs *
      10 ^ (x.exponent - y.exponent - zeros) := by
  rw [value_div_value hy zeros, signFactor_mul, abs_mul, abs_sign, one_mul,
    abs_of_nonneg (by positivity)]

theorem powerOfTen_mul_tens_le {digits zeros : ℕ} (hdigits : digits < UInt32.size)
    (hlong : UInt32.size ≤ zeros) : powerOfTen zeros * tens (digits + 1) ≤ tens zeros := by
  have hmod : zeros % UInt32.size ≤ zeros - UInt32.size := by
    rw [Nat.mod_eq_sub_mod hlong]
    exact Nat.mod_le _ _
  rw [powerOfTen, ← tens_add]
  exact tens_le_tens (by omega)

theorem quotient_mul_tens_le {digits zeros d : ℕ} (hdigits : digits < UInt32.size)
    (hlong : UInt32.size ≤ zeros) (hd : 0 < d) (n : ℕ) :
    n * powerOfTen zeros / d * tens (digits + 1) ≤ n * tens zeros / d := by
  rw [Nat.le_div_iff_mul_le hd, Nat.mul_right_comm]
  calc n * powerOfTen zeros / d * d * tens (digits + 1)
      ≤ n * powerOfTen zeros * tens (digits + 1) :=
        Nat.mul_le_mul_right _ (Nat.div_mul_le_self _ _)
    _ = n * (powerOfTen zeros * tens (digits + 1)) := Nat.mul_assoc _ _ _
    _ ≤ n * tens zeros := Nat.mul_le_mul_left n (powerOfTen_mul_tens_le hdigits hlong)

theorem le_mul_of_mul_tens_le {a b : ℚ} {digits : ℕ} (h : a * tens (digits + 1) ≤ b) :
    a ≤ b * 10 ^ (-(digits : ℤ) - 1) := by
  have hscale : ((tens (digits + 1) : ℕ) : ℚ) * 10 ^ (-(digits : ℤ) - 1) = 1 := by
    rw [cast_tens_zpow, ← ten_zpow_add]
    push_cast
    norm_num
  calc a = a * tens (digits + 1) * 10 ^ (-(digits : ℤ) - 1) := by rw [mul_assoc, hscale, mul_one]
    _ ≤ b * 10 ^ (-(digits : ℤ) - 1) := mul_le_mul_of_nonneg_right h (ten_zpow_pos _).le

/-- What is rounded instead of the quotient: a quotient by a power of ten that is too short, and one
unit of the last digit at most. -/
theorem exists_finish_of_longPower (hx : x.value ≠ 0) (hy : y.value ≠ 0)
    (hc : c.digits < UInt32.size) (hshift : UInt32.size ≤ c.digits + 2 + y.length - x.length) :
    ∃ m e : ℤ, x.div y c = finish m e c ∧
      |(m : ℚ) * 10 ^ e| ≤ |x.value / y.value| * (2 * 10 ^ (-(c.digits : ℤ) - 1)) := by
  have hx' : x.mantissa.natAbs ≠ 0 := (natAbs_mantissa_pos hx).ne'
  have hy' : 0 < y.mantissa.natAbs := natAbs_mantissa_pos hy
  have hlong := tens_le_quotient hx' hy' c.digits
  have habs := abs_value_div_value (x := x) hy (c.digits + 2 + y.length - x.length)
  have hcut := quotient_mul_tens_le hc hshift hy' x.mantissa.natAbs
  rw [div, if_neg (fun h => hy (isZero_iff.mp h)), if_neg (fun h => hx (isZero_iff.mp h))]
  simp only
  generalize c.digits + 2 + y.length - x.length = zeros at *
  generalize x.mantissa.natAbs = n at *
  generalize y.mantissa.natAbs = d at *
  generalize x.exponent - y.exponent - (zeros : ℤ) = e at *
  have hbelow : ∀ k : ℕ, k ≤ n * tens zeros / d → (k : ℚ) * 10 ^ e ≤ |x.value / y.value| := by
    intro k hk
    rw [habs]
    exact mul_le_mul_of_nonneg_right ((Nat.cast_le.mpr hk).trans Nat.cast_div_le)
      (ten_zpow_pos e).le
  have hunit : (10 : ℚ) ^ (e - 1) ≤ |x.value / y.value| * 10 ^ (-(c.digits : ℤ) - 1) := by
    refine le_mul_of_mul_tens_le (le_of_eq_of_le ?_ (hbelow _ hlong))
    rw [tens_succ, ten_zpow_eq_ten_mul e]
    push_cast
    ring
  have hquotient : ((n * powerOfTen zeros / d : ℕ) : ℚ) * 10 ^ e ≤
      |x.value / y.value| * 10 ^ (-(c.digits : ℤ) - 1) := by
    refine le_mul_of_mul_tens_le (le_of_eq_of_le ?_ (hbelow _ hcut))
    rw [mul_right_comm, Nat.cast_mul]
  generalize n * powerOfTen zeros / d = k at hquotient ⊢
  by_cases hrem : n * powerOfTen zeros % d = 0
  · refine ⟨_, _, if_pos hrem, ?_⟩
    rw [Int.cast_mul, abs_mul, abs_mul, abs_sign, one_mul, Int.cast_natCast, Nat.abs_cast,
      abs_of_pos (ten_zpow_pos e)]
    linarith [ten_zpow_pos (e - 1)]
  · refine ⟨_, _, if_neg hrem, ?_⟩
    rw [Int.cast_mul, abs_mul, abs_mul, abs_sign, one_mul, Int.cast_natCast, Nat.abs_cast,
      abs_of_pos (ten_zpow_pos _), witness]
    rw [ten_zpow_eq_ten_mul e] at hquotient
    push_cast
    linarith

theorem exists_div_of_longPower (hx : x.value ≠ 0) (hy : y.value ≠ 0) (hc : c.digits < UInt32.size)
    (hshift : UInt32.size ≤ c.digits + 2 + y.length - x.length)
    (hq : |x.value / y.value| < 10 ^ maxAdjusted) :
    ∃ v : Decimal, x.div y c = some v ∧
      |v.value| ≤ |x.value / y.value| * 10 ^ (-(c.digits : ℤ)) := by
  obtain ⟨m, e, hdiv, hle⟩ := exists_finish_of_longPower hx hy hc hshift
  have hunit := ten_zpow_eq_ten_mul (-(c.digits : ℤ))
  have hone : (10 : ℚ) ^ (-(c.digits : ℤ)) ≤ 1 := zpow_le_one_of_nonpos₀ (by norm_num) (by omega)
  have hpos := ten_zpow_pos (-(c.digits : ℤ) - 1)
  have hq0 := abs_nonneg (x.value / y.value)
  obtain ⟨v, hv, hv2⟩ := (rounds_finish (c := c) m e).exists_le (by nlinarith)
  exact ⟨v, hdiv.trans hv, by nlinarith⟩

theorem exists_div (hy : y.value ≠ 0)
    (hshift : c.digits + 2 + y.length - x.length < UInt32.size)
    (hlow : 10 ^ (-maxAdjusted) ≤ |x.value / y.value|)
    (hhigh : |x.value / y.value| < 10 ^ maxAdjusted) :
    ∃ v : Decimal, x.div y c = some v ∧ IsRounding c.digits (x.value / y.value) v.value := by
  obtain ⟨r, -, hr, ho⟩ := rounds_div x hy hshift
  exact ⟨r, ho.trans (bounded_of_isRounding c.positive hr hhigh fun _ => hlow), hr⟩

end Decimal

/-! ### From the text -/

theorem Expr.read_product {a b : Text} (ha : IsNumeral a) (hb : IsNumeral b) (op : BinaryOp)
    (hop : op.level = .product) :
    read (a ++ op.token.text ++ b) = .ok (.binary op (.literal a) (.literal b)) := by
  rw [read, readAll_binary ha hb op]
  exact ofTokens_of_derives (.sumOfProduct (.product hop (derives_of_atom (by simp) (.number a))
    (derives_of_atom (by simp) (.number b))))

theorem numeralValue_bounds {t : Text} (h : IsNumeral t) (h0 : numeralValue t ≠ 0) :
    10 ^ (-(t.length : ℤ)) ≤ |numeralValue t| ∧ |numeralValue t| < 10 ^ (t.length : ℤ) := by
  refine ⟨?_, abs_numeralValue_lt h⟩
  obtain ⟨m, hm⟩ := exists_numeralValue_eq (t := t) le_rfl
  rw [hm] at h0 ⊢
  exact ten_zpow_le_abs_mul h0

theorem length_le_of_isNumeral {t : Text} (h : IsNumeral t) {x : Decimal}
    (hx : x.value = numeralValue t) : x.length ≤ t.length := by
  obtain ⟨hne, hdigits⟩ := h.digits_eq
  have hlt := ofDigitChars_lt hdigits
  generalize hn : Nat.ofDigitChars 10 (wholeDigits t ++ fractionDigits t) 0 = n at hlt
  have heq : x = ofScaled n (-(fractionDigits t).length) := by
    apply value_injective
    rw [hx, value_ofScaled, numeralValue, hn, Int.cast_natCast]
  rw [heq]
  refine (length_ofScaled_le _ (List.length_pos_iff.mpr hne) ?_).trans (length_digits_le t)
  exact hlt.le

theorem evaluateText_of_div (p : Preferences) {a b : Text} (ha : IsNumeral a) (hb : IsNumeral b)
    (hla : (a.length : ℤ) ≤ maxAdjusted) (hlb : (b.length : ℤ) ≤ maxAdjusted) {x y v : Decimal}
    (hx : x.value = numeralValue a) (hy : y.value = numeralValue b) (hy0 : y.value ≠ 0)
    (hdiv : x.div y p.context = some v) : p.evaluateText (a ++ ['/'] ++ b) = .ok v := by
  obtain ⟨x', hreadx, hvalx⟩ := read_of_isNumeral ha hla
  obtain ⟨y', hready, hvaly⟩ := read_of_isNumeral hb hlb
  obtain rfl := value_injective (hvalx.trans hx.symm)
  obtain rfl := value_injective (hvaly.trans hy.symm)
  have heval : (Expr.binary .div (.literal a) (.literal b)).eval p.angleUnit p.context = .ok v := by
    rw [Expr.eval, Expr.eval, Expr.eval, hreadx, hready]
    show BinaryOp.div.apply _ _ _ = _
    rw [BinaryOp.apply, if_neg (fun h => hy0 (isZero_iff.mp h)), hdiv]
    rfl
  rw [p.evaluateText_eq]
  have hread := Expr.read_product ha hb .div rfl
  show (Expr.read (a ++ BinaryOp.div.token.text ++ b)).bind _ = _
  rw [hread]
  show ((Expr.binary .div (.literal a) (.literal b)).eval p.angleUnit p.context).map _ = _
  rw [heval]
  exact congrArg Except.ok (round_of_length_le (settles_div _ _ v hdiv).length_le)

theorem not_abs_sub_le {q r : ℚ} (hq : q ≠ 0) {digits : ℕ} (hdigits : 2 ≤ digits)
    (h : |r| ≤ |q| * 10 ^ (-(digits : ℤ))) : ¬|r - q| ≤ |q| * 10 ^ (1 - (digits : ℤ)) := by
  intro hnear
  have hunit : (10 : ℚ) ^ (1 - (digits : ℤ)) = 10 * 10 ^ (-(digits : ℤ)) := by
    rw [ten_zpow_eq_ten_mul]
    congr 2
    ring
  have htiny : (10 : ℚ) ^ (-(digits : ℤ)) ≤ 10 ^ (-2 : ℤ) := ten_zpow_le.mpr (by omega)
  have hhundred : (10 : ℚ) ^ (-2 : ℤ) = 1 / 100 := by norm_num
  have htriangle := abs_sub_abs_le_abs_sub q r
  rw [abs_sub_comm] at htriangle
  have hpart := mul_le_mul_of_nonneg_left (htiny.trans_eq hhundred) (abs_nonneg q)
  have hpos := abs_pos.mpr hq
  rw [hunit, mul_left_comm] at hnear
  linarith

theorem quotient_bounds {a b : Text} (ha : IsNumeral a) (hb : IsNumeral b)
    (hla : a.length < UInt32.size) (hlb : b.length < UInt32.size) (ha0 : numeralValue a ≠ 0)
    (hb0 : numeralValue b ≠ 0) :
    10 ^ (-maxAdjusted) ≤ |numeralValue a / numeralValue b| ∧
      |numeralValue a / numeralValue b| < 10 ^ maxAdjusted := by
  obtain ⟨hlowa, hhigha⟩ := numeralValue_bounds ha ha0
  obtain ⟨hlowb, hhighb⟩ := numeralValue_bounds hb hb0
  have hsize : UInt32.size = 4294967296 := rfl
  have hmax : maxAdjusted = 9000000000000000 := rfl
  have hposb := abs_pos.mpr hb0
  rw [abs_div]
  constructor
  · rw [le_div_iff₀ hposb]
    calc (10 : ℚ) ^ (-maxAdjusted) * |numeralValue b|
        ≤ 10 ^ (-maxAdjusted) * 10 ^ (b.length : ℤ) :=
          mul_le_mul_of_nonneg_left hhighb.le (ten_zpow_pos _).le
      _ = 10 ^ (-maxAdjusted + b.length) := (ten_zpow_add _ _).symm
      _ ≤ 10 ^ (-(a.length : ℤ)) := ten_zpow_le.mpr (by omega)
      _ ≤ |numeralValue a| := hlowa
  · rw [div_lt_iff₀ hposb]
    calc |numeralValue a|
        < 10 ^ (a.length : ℤ) := hhigha
      _ ≤ 10 ^ (maxAdjusted + -(b.length : ℤ)) := ten_zpow_le.mpr (by omega)
      _ = 10 ^ maxAdjusted * 10 ^ (-(b.length : ℤ)) := ten_zpow_add _ _
      _ ≤ 10 ^ maxAdjusted * |numeralValue b| :=
          mul_le_mul_of_nonneg_left hlowb (ten_zpow_pos _).le

/-- A division of two numerals asks for a power of ten that is too long just if the zeros behind the
dividend do not fit 32 bits. If they do the value is the quotient rounded once, and otherwise every
digit of it lies below those that would be kept; so the error is within a unit of the last digit
just if they do. -/
theorem evaluateText_quotient (p : Preferences) {a b : Text} (ha : IsNumeral a) (hb : IsNumeral b)
    (hla : a.length < UInt32.size) (hlb : b.length < UInt32.size) {x y : Decimal}
    (hx : x.value = numeralValue a) (hy : y.value = numeralValue b) (hx0 : x.value ≠ 0)
    (hy0 : y.value ≠ 0) :
    let digits := p.effectivePrecision
    let zeros := digits + 2 + y.length - x.length
    let q := x.value / y.value
    (divSteps x y p.context = .error .longPower ↔ UInt32.size ≤ zeros) ∧
      ∃ v : Decimal, p.evaluateText (a ++ ['/'] ++ b) = .ok v ∧
        (zeros < UInt32.size → IsRounding digits q v.value) ∧
        (UInt32.size ≤ zeros → |v.value| ≤ |q| * 10 ^ (-(digits : ℤ))) ∧
        (|v.value - q| ≤ |q| * 10 ^ (1 - (digits : ℤ)) ↔ zeros < UInt32.size) := by
  have hleast : 28 ≤ p.effectivePrecision := p.minPrecision_le
  have hmost : p.effectivePrecision < UInt32.size := UInt32.toNat_lt_size _
  rw [← p.digits_context] at hleast hmost ⊢
  intro digits zeros q
  have hsize : UInt32.size = 4294967296 := rfl
  have hmax : maxAdjusted = 9000000000000000 := rfl
  have hxl := (length_le_of_isNumeral ha hx).trans_lt hla
  have hrange := quotient_bounds ha hb hla hlb (hx ▸ hx0) (hy ▸ hy0)
  rw [← hx, ← hy] at hrange
  have hvalue : ∀ {v}, x.div y p.context = some v → p.evaluateText (a ++ ['/'] ++ b) = .ok v :=
    fun hdiv => evaluateText_of_div p ha hb (by omega) (by omega) hx hy hy0 hdiv
  refine ⟨divSteps_eq_longPower_iff hx0 hy0 hxl hmost, ?_⟩
  by_cases hfits : zeros < UInt32.size
  · obtain ⟨v, hdiv, hround⟩ := exists_div hy0 hfits hrange.1 hrange.2
    refine ⟨v, hvalue hdiv, fun _ => hround, fun hlong => absurd hfits hlong.not_gt, ?_⟩
    refine iff_of_true ?_ hfits
    rw [abs_sub_comm]
    refine hround.abs_sub_le_mul.trans (mul_le_mul_of_nonneg_left ?_ (abs_nonneg _))
    exact half_le_self (ten_zpow_pos _).le
  · obtain ⟨v, hdiv, hsmall⟩ := exists_div_of_longPower hx0 hy0 hmost (not_lt.mp hfits) hrange.2
    refine ⟨v, hvalue hdiv, fun h => absurd h hfits, fun _ => hsmall, iff_of_false ?_ hfits⟩
    exact not_abs_sub_le (div_ne_zero hx0 hy0) (by omega) hsmall

theorem evaluateText_quotient_six_thirds :
    let p : Preferences := { precision := 4294967295 }
    let six : Decimal := ⟨6, 0, .inr (by decide)⟩
    let three : Decimal := ⟨3, 0, .inr (by decide)⟩
    let v : Decimal := ⟨2, -4294967296, .inr (by decide)⟩
    divSteps six three p.context = .error .longPower ∧ p.evaluateText "6/3".toList = .ok v ∧
      ¬|v.value - 2| ≤ 2 * 10 ^ (1 - 4294967295 : ℤ) := by
  intro p six three v
  have ha : IsNumeral "6".toList := .integer (List.all_eq_true.mp rfl) (by decide)
  have hb : IsNumeral "3".toList := .integer (List.all_eq_true.mp rfl) (by decide)
  have hx : six.value = numeralValue "6".toList := by
    show ((6 : ℤ) : ℚ) * 10 ^ (0 : ℤ) = ((6 : ℕ) : ℚ) * 10 ^ (-((0 : ℕ) : ℤ))
    norm_num
  have hy : three.value = numeralValue "3".toList := by
    show ((3 : ℤ) : ℚ) * 10 ^ (0 : ℤ) = ((3 : ℕ) : ℚ) * 10 ^ (-((0 : ℕ) : ℤ))
    norm_num
  have hx6 : six.value = 6 := by norm_num [six, value]
  have hy3 : three.value = 3 := by norm_num [three, value]
  have hxl : six.length = 1 := (digitCount_eq_iff (by decide)).mpr (by decide)
  have hyl : three.length = 1 := (digitCount_eq_iff (by decide)).mpr (by decide)
  obtain ⟨hsteps, w, hw, -, -, hnear⟩ := evaluateText_quotient p ha hb (by decide) (by decide) hx hy
    (by rw [hx6]; norm_num) (by rw [hy3]; norm_num)
  have hdigits : p.effectivePrecision = 4294967295 := by decide
  have hlong : ¬p.effectivePrecision + 2 + three.length - six.length < UInt32.size := by
    rw [hxl, hyl, hdigits]
    decide
  have hv : p.evaluateText "6/3".toList = .ok v :=
    evaluateText_of_div p ha hb (by decide) (by decide) hx hy (by rw [hy3]; norm_num)
      (by decide +kernel)
  obtain rfl : w = v := Except.ok.inj (hw.symm.trans hv)
  refine ⟨hsteps.mpr (not_lt.mp hlong), hv, fun h => hlong (hnear.mp ?_)⟩
  rwa [hx6, hy3, hdigits, show (6 / 3 : ℚ) = 2 by norm_num, abs_of_pos (by norm_num : (0 : ℚ) < 2)]

end DeskCalculator
