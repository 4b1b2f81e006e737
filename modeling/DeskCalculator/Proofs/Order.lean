import DeskCalculator.Proofs.Value

/-!
# What the representation decides

A number has one pair of mantissa and exponent in canonical form, and normalizing any
other pair gives it. Questions about the number are therefore questions about the pair:
equality is equality of pairs, the sign of the exponent tells whether it is an integer,
and the comparison by sign, leading digit and aligned digits is the order of the rational
numbers.
-/

set_option autoImplicit false

namespace DeskCalculator.Decimal

open DeskCalculator.Natural

def IsCanonical (m e : ℤ) : Prop := m = 0 ∧ e = 0 ∨ ¬(10 : ℤ) ∣ m

variable {x y : Decimal}

/-! ### One pair for each number -/

theorem ofScaled_of_isCanonical {m e : ℤ} (h : IsCanonical m e) :
    (ofScaled m e).mantissa = m ∧ (ofScaled m e).exponent = e := by
  have hx : ofScaled m e = ⟨m, e, h⟩ := value_injective (value_ofScaled m e)
  rw [hx]
  exact ⟨rfl, rfl⟩

/-- Among all pairs for a number, the canonical one is what normalizing any of them gives. -/
theorem isCanonical_iff_ofScaled (m e m' e' : ℤ) :
    IsCanonical m' e' ∧ (m' : ℚ) * 10 ^ e' = m * 10 ^ e ↔
      m' = (ofScaled m e).mantissa ∧ e' = (ofScaled m e).exponent := by
  constructor
  · rintro ⟨hc, hv⟩
    obtain ⟨hm, he⟩ := ofScaled_of_isCanonical hc
    have hx : ofScaled m' e' = ofScaled m e :=
      value_injective (by rw [value_ofScaled, value_ofScaled, hv])
    rw [← hx]
    exact ⟨hm.symm, he.symm⟩
  · rintro ⟨rfl, rfl⟩
    exact ⟨(ofScaled m e).canonical, value_ofScaled m e⟩

theorem isCanonical_of_natAbs_eq {m e : ℤ} (hm : m.natAbs = x.mantissa.natAbs)
    (he : x.mantissa = 0 → e = 0) : IsCanonical m e := by
  by_cases hx : x.mantissa = 0
  · exact Or.inl ⟨by omega, he hx⟩
  · refine Or.inr fun hd => ?_
    rcases x.canonical with ⟨hz, -⟩ | hn
    · exact hx hz
    · exact hn (Int.natAbs_dvd_natAbs.mp (hm ▸ Int.natAbs_dvd_natAbs.mpr hd))

/-! ### Sign -/

theorem value_pos_iff : 0 < x.value ↔ 0 < x.mantissa := by
  rw [value, mul_pos_iff_of_pos_right (ten_zpow_pos _), Int.cast_pos]

theorem value_neg_iff : x.value < 0 ↔ x.mantissa < 0 := by
  rw [← isNegative_iff, isNegative, decide_eq_true_iff]

theorem sign_le_of_value_le (h : x.value ≤ y.value) : x.mantissa.sign ≤ y.mantissa.sign := by
  rcases lt_trichotomy y.mantissa 0 with hy | hy | hy
  · have hx : x.mantissa < 0 := value_neg_iff.mp (h.trans_lt (value_neg_iff.mpr hy))
    rw [Int.sign_eq_neg_one_of_neg hx, Int.sign_eq_neg_one_of_neg hy]
  · have hx : ¬0 < x.mantissa := fun hx =>
      absurd (h.trans (value_eq_zero.mpr hy).le) (not_le.mpr (value_pos_iff.mpr hx))
    rw [hy, Int.sign_zero, ← not_lt, Int.sign_pos_iff]
    exact hx
  · rw [Int.sign_eq_one_of_pos hy]
    rcases Int.sign_trichotomy x.mantissa with hx | hx | hx <;> omega

theorem value_lt_of_sign_lt (h : x.mantissa.sign < y.mantissa.sign) : x.value < y.value :=
  lt_of_not_ge fun hle => absurd (sign_le_of_value_le hle) (not_le.mpr h)

/-! ### Order -/

theorem abs_value_eq_mantissaAt {e : ℤ} (h : e ≤ x.exponent) :
    |x.value| = x.mantissaAt e * 10 ^ e := by
  rw [abs_value, ten_zpow_eq_mul h, mantissaAt, Nat.cast_mul, mul_assoc]

theorem abs_value_lt_of_adjusted_lt (hy : y.value ≠ 0) (h : x.adjusted < y.adjusted) :
    |x.value| < |y.value| :=
  ((abs_value_lt x).trans_le (ten_zpow_le.mpr h)).trans_le (le_abs_value hy)

/-- Leading digit first, then digit by digit, is the order of the magnitudes. -/
theorem cmpMagnitude_eq (hx : x.value ≠ 0) (hy : y.value ≠ 0) :
    x.cmpMagnitude y = compare |x.value| |y.value| := by
  unfold cmpMagnitude
  split
  · next h =>
    have hmono : StrictMono fun n : ℕ => (n : ℚ) * 10 ^ min x.exponent y.exponent :=
      fun a b hab => mul_lt_mul_of_pos_right (by exact_mod_cast hab) (ten_zpow_pos _)
    rw [abs_value_eq_mantissaAt (min_le_left _ _), abs_value_eq_mantissaAt (min_le_right _ _),
      ← cmp_eq_compare, ← cmp_eq_compare]
    exact (hmono.cmp_map_eq _ _).symm
  · next h =>
    rcases lt_or_gt_of_ne h with hlt | hgt
    · rw [compare_lt_iff_lt.mpr hlt, compare_lt_iff_lt.mpr (abs_value_lt_of_adjusted_lt hy hlt)]
    · rw [compare_gt_iff_gt.mpr hgt, compare_gt_iff_gt.mpr (abs_value_lt_of_adjusted_lt hx hgt)]

theorem compare_abs_of_neg {q r : ℚ} (hq : q < 0) (hr : r < 0) :
    compare |q| |r| = compare r q := by
  have hanti : StrictAnti fun s : ℚ => -s := fun _ _ => neg_lt_neg
  rw [abs_of_neg hq, abs_of_neg hr, ← cmp_eq_compare, ← cmp_eq_compare]
  exact hanti.cmp_map_eq q r

theorem cmp_eq_compare_value (x y : Decimal) : x.cmp y = compare x.value y.value := by
  unfold cmp
  rcases lt_trichotomy x.mantissa.sign y.mantissa.sign with hs | hs | hs
  · rw [compare_lt_iff_lt.mpr hs, compare_lt_iff_lt.mpr (value_lt_of_sign_lt hs)]
  · rw [compare_eq_iff_eq.mpr hs]
    by_cases hx : x.mantissa = 0
    · have hy : y.mantissa = 0 := by
        rwa [hx, Int.sign_zero, eq_comm, Int.sign_eq_zero_iff_zero] at hs
      rw [if_pos hx, value_eq_zero.mpr hx, value_eq_zero.mpr hy, compare_eq_iff_eq.mpr rfl]
    · have hx0 : x.value ≠ 0 := fun h => hx (value_eq_zero.mp h)
      have hy0 : y.value ≠ 0 := by
        rw [Ne, value_eq_zero, ← Int.sign_eq_zero_iff_zero, ← hs, Int.sign_eq_zero_iff_zero]
        exact hx
      rw [if_neg hx]
      by_cases hneg : x.mantissa < 0
      · have hyneg : y.mantissa < 0 := by
          rwa [← Int.sign_neg_iff, ← hs, Int.sign_neg_iff]
        have hxneg : x.isNegative = true := decide_eq_true hneg
        show (if x.isNegative then y.cmpMagnitude x else x.cmpMagnitude y) = _
        rw [if_pos hxneg, cmpMagnitude_eq hy0 hx0,
          compare_abs_of_neg (value_neg_iff.mpr hyneg) (value_neg_iff.mpr hneg)]
      · have hpos : 0 < x.mantissa := by omega
        have hypos : 0 < y.mantissa := by
          rwa [← Int.sign_pos_iff, ← hs, Int.sign_pos_iff]
        have hxneg : ¬x.isNegative = true := fun h => hneg (of_decide_eq_true h)
        show (if x.isNegative then y.cmpMagnitude x else x.cmpMagnitude y) = _
        rw [if_neg hxneg, cmpMagnitude_eq hx0 hy0,
          abs_of_pos (value_pos_iff.mpr hpos), abs_of_pos (value_pos_iff.mpr hypos)]
  · rw [compare_gt_iff_gt.mpr hs, compare_gt_iff_gt.mpr (value_lt_of_sign_lt hs)]

instance : Std.TransCmp cmp where
  eq_swap {x y} := by
    rw [cmp_eq_compare_value, cmp_eq_compare_value]
    exact Std.OrientedOrd.eq_swap
  isLE_trans {x y z} := by
    rw [cmp_eq_compare_value, cmp_eq_compare_value, cmp_eq_compare_value]
    exact Std.TransOrd.isLE_trans

instance : Std.LawfulEqCmp cmp where
  compare_self {x} := by rw [cmp_eq_compare_value, compare_eq_iff_eq.mpr rfl]
  eq_of_compare {x y} h := by
    rw [cmp_eq_compare_value, compare_eq_iff_eq] at h
    exact value_injective h

/-! ### Integers -/

theorem isInteger_iff : x.isInteger = true ↔ ∃ n : ℤ, x.value = n := by
  rw [isInteger, decide_eq_true_iff]
  constructor
  · intro he
    exact ⟨_, by rw [value_eq_mul he, zpow_zero, mul_one]⟩
  · rintro ⟨n, hn⟩
    have hx : x = ofScaled n 0 := by
      apply value_injective
      rw [hn, value_ofScaled, zpow_zero, mul_one]
    rw [hx, ofScaled]
    split
    · exact le_refl 0
    · exact Int.le_add_of_nonneg_right (Int.natCast_nonneg _)

theorem value_eq_intCast_iff (he : 0 ≤ x.exponent) {n : ℤ} :
    x.value = n ↔ x.mantissa * tens x.exponent.toNat = n := by
  rw [value_eq_mul he, zpow_zero, mul_one, Int.cast_inj, sub_zero]

theorem isEven_iff : x.isEven = true ↔ ∃ n : ℤ, Even n ∧ x.value = n := by
  rw [isEven, Bool.or_eq_true, Bool.and_eq_true, decide_eq_true_iff, decide_eq_true_iff,
    decide_eq_true_iff]
  constructor
  · rintro (he | ⟨he, hm⟩)
    · refine ⟨_, ?_, (value_eq_intCast_iff he.le).mpr rfl⟩
      have hten : Even (tens x.exponent.toNat : ℤ) := by
        rw [Int.even_coe_nat, tens_eq_pow]
        exact Nat.even_pow.mpr ⟨by decide, by omega⟩
      exact hten.mul_left _
    · refine ⟨x.mantissa, Int.even_iff.mpr hm, (value_eq_intCast_iff he.ge).mpr ?_⟩
      simp [he, tens_zero]
  · rintro ⟨n, hn, hv⟩
    have he : 0 ≤ x.exponent := of_decide_eq_true (isInteger_iff.mpr ⟨n, hv⟩)
    rcases he.lt_or_eq with he | he
    · exact Or.inl he
    · rw [value_eq_intCast_iff he.le, ← he, Int.toNat_zero, tens_zero, Nat.cast_one,
        mul_one] at hv
      exact Or.inr ⟨he.symm, Int.even_iff.mp (hv ▸ hn)⟩

theorem not_fitsWord {m : ℤ} (hm : m ≠ 0) {k : ℕ} (hk : 18 < k) : ¬FitsWord (m * tens k) := by
  have hten : tens 19 ≤ tens k := tens_le_tens hk
  have hval : tens 19 = 10000000000000000000 := rfl
  have habs : (10000000000000000000 : ℤ) ≤ |m * tens k| := by
    rw [abs_mul, abs_of_nonneg (Int.natCast_nonneg (tens k))]
    have h1 := Int.one_le_abs hm
    nlinarith
  rintro ⟨hlow, hhigh⟩
  rcases le_abs.mp habs with h | h <;> omega

theorem toWord?_eq_some_iff {n : ℤ} : x.toWord? = some n ↔ x.value = n ∧ FitsWord n := by
  rw [toWord?]
  split
  · next he =>
    rw [value_eq_intCast_iff he.1]
    simp only
    split
    · next hfits =>
      rw [Option.some_inj]
      exact ⟨fun h => ⟨h, h ▸ hfits⟩, And.left⟩
    · next hfits => exact iff_of_false nofun fun h => hfits (h.1 ▸ h.2)
  · next he =>
    refine iff_of_false nofun fun ⟨hv, hfits⟩ => ?_
    have hint : 0 ≤ x.exponent := of_decide_eq_true (isInteger_iff.mpr ⟨n, hv⟩)
    have hm : x.mantissa ≠ 0 := by
      intro hm
      have := exponent_eq_zero hm
      omega
    rw [value_eq_intCast_iff hint] at hv
    exact not_fitsWord hm (by omega) (hv ▸ hfits)

/-- Of the pairs for a number one is canonical, and normalizing any of them finds it. The pair of
a decimal is canonical, and so are those that operations build from its digits without
normalizing: for the negation, for the magnitude, and for the magnitude with its leading digit
before the point. Equal decimals are those of equal value, the comparison is the total order
of the values, and the pair tells the integers, the even ones and those of 64 bits. -/
theorem canonical_representation :
    (∀ m e m' e' : ℤ, IsCanonical m' e' ∧ (m' : ℚ) * 10 ^ e' = m * 10 ^ e ↔
      m' = (ofScaled m e).mantissa ∧ e' = (ofScaled m e).exponent) ∧
    (∀ x : Decimal, IsCanonical x.mantissa x.exponent ∧ IsCanonical (-x.mantissa) x.exponent ∧
      IsCanonical |x.mantissa| x.exponent ∧ IsCanonical |x.mantissa| (1 - x.length)) ∧
    (∀ x y : Decimal, (x = y ↔ x.value = y.value) ∧ x.cmp y = compare x.value y.value ∧
      (x.cmp y = .eq ↔ x = y)) ∧
    Std.TransCmp cmp ∧
    ∀ x : Decimal, (x.isInteger = true ↔ ∃ n : ℤ, x.value = n) ∧
      (x.isEven = true ↔ ∃ n : ℤ, Even n ∧ x.value = n) ∧
      ∀ n : ℤ, x.toWord? = some n ↔ x.value = n ∧ FitsWord n := by
  refine ⟨isCanonical_iff_ofScaled, fun x => ⟨x.canonical, ?_, ?_, ?_⟩, fun x y => ⟨?_, ?_, ?_⟩,
    inferInstance, fun x => ⟨isInteger_iff, isEven_iff, fun n => toWord?_eq_some_iff⟩⟩
  · exact isCanonical_of_natAbs_eq (Int.natAbs_neg _) exponent_eq_zero
  · exact isCanonical_of_natAbs_eq (Int.natAbs_abs _) exponent_eq_zero
  · exact isCanonical_of_natAbs_eq (Int.natAbs_abs _) fun h => by rw [length_eq_one h]; rfl
  · exact value_eq_iff.symm
  · exact cmp_eq_compare_value x y
  · exact Std.LawfulEqCmp.compare_eq_iff_eq

end DeskCalculator.Decimal
