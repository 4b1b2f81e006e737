import DeskCalculator.Proofs.Range
import DeskCalculator.Proofs.Series

/-!
# The carry of the last rounding

Operations round first and hold the result to the range after that. Where a value that is in
the range already is rounded once more, as at the end of an evaluation, of a function and of
some powers, nothing holds it to the range again. Rounding does not cross a power of ten, so
the value can leave the range in one way only: a carry makes it the power of ten just above.
That happens from half a unit of the last place below, and the value is then given as a result.
-/

set_option autoImplicit false

namespace DeskCalculator

open DeskCalculator.Natural DeskCalculator.FixedPoint

namespace Decimal

variable {x : Decimal} {c : Context} {digits : ℕ}

/-- In the range, or the power of ten just above it, up to the sign. -/
def Reaches (x : Decimal) : Prop := x.InRange ∨ |x.value| = 10 ^ (maxAdjusted + 1)

theorem reaches_iff : x.Reaches ↔ (x.value ≠ 0 → 10 ^ (-maxAdjusted) ≤ |x.value|) ∧
    |x.value| ≤ 10 ^ (maxAdjusted + 1) := by
  constructor
  · rintro (h | h)
    · exact ⟨fun hx => (h.bounds hx).1, h.abs_lt.le⟩
    · refine ⟨fun _ => ?_, h.le⟩
      rw [h]
      exact ten_zpow_le.mpr (by decide)
  · rintro ⟨hlow, hhigh⟩
    rcases hhigh.lt_or_eq with hlt | heq
    · exact .inl (inRange_of_abs hlt hlow)
    · exact .inr heq

theorem Reaches.neg (h : x.Reaches) : (-x).Reaches := by
  rcases h with h | h
  · exact .inl (inRange_neg h)
  · exact .inr (by rw [value_neg, abs_neg, h])

theorem round_of_abs_eq {e : ℤ} (hd : 0 < digits) (h : |x.value| = 10 ^ e) :
    x.round digits = x := by
  have hone : ∀ m : ℤ, m.natAbs = 1 → x.value = m * 10 ^ e → x.round digits = x := by
    intro m hm hv
    obtain rfl : x = ofScaled m e := value_injective (hv.trans (value_ofScaled m e).symm)
    exact round_of_length_le (length_ofScaled_le e hd (hm ▸ tens_pos digits))
  rcases eq_or_eq_neg_of_abs_eq h with hv | hv
  · exact hone 1 rfl (by rw [hv, Int.cast_one, one_mul])
  · exact hone (-1) rfl (by rw [hv, Int.cast_neg, Int.cast_one, neg_one_mul])

theorem Reaches.round (h : x.Reaches) (hd : 0 < digits) : (x.round digits).Reaches := by
  rcases h with h | h
  · have hround := round_isRounding x hd
    refine reaches_iff.mpr ⟨fun hr => ?_, hround.abs_le_ten_zpow h.abs_lt⟩
    have hx : x.value ≠ 0 := fun hx => hr (hround.unique (.inl ⟨hx, rfl⟩))
    exact hround.ten_zpow_le_abs hd (h.bounds hx).1
  · rw [round_of_abs_eq hd h]
    exact .inr h

theorem Reaches.inRange_iff (h : x.Reaches) : x.InRange ↔ |x.value| ≠ 10 ^ (maxAdjusted + 1) :=
  ⟨fun hr => hr.abs_lt.ne, fun hne => h.resolve_right hne⟩

theorem Reaches.inRange_round_iff (h : x.Reaches) (hd : 0 < digits) :
    (x.round digits).InRange ↔
      |x.value| < 10 ^ (maxAdjusted + 1) - 10 ^ (maxAdjusted + 1 - digits) / 2 := by
  rw [(h.round hd).inRange_iff]
  rcases h with h | h
  · rw [Ne, (round_isRounding x hd).eq_ten_zpow_iff hd h.abs_lt, not_le]
  · have hpos := ten_zpow_pos (maxAdjusted + 1 - digits)
    rw [round_of_abs_eq hd h, h]
    exact ⟨fun hne => absurd rfl hne, fun hlt => absurd hlt (by linarith)⟩

/-! ### Every step of an evaluation -/

theorem inRange_of_read {t : Text} (h : read? t = some x) : x.InRange := by
  unfold read? readThen at h
  simp only [Option.bind_eq_bind] at h
  obtain ⟨exponent, -, h⟩ := Option.bind_eq_some_iff.mp h
  obtain ⟨_, -, h⟩ := Option.bind_eq_some_iff.mp h
  obtain ⟨_, -, h⟩ := Option.bind_eq_some_iff.mp h
  rcases inRange_of_bounded h with ⟨rfl, hr⟩ | rfl
  · exact hr
  · exact .inl rfl

theorem reaches_ofScaled {n : ℤ} {w : ℕ} (hw : (w : ℤ) ≤ maxAdjusted)
    (hn : n.natAbs ≤ tens (w + 4096)) : (ofScaled n (-w)).Reaches := by
  have hvalue : |(ofScaled n (-w)).value| = n.natAbs * 10 ^ (-w : ℤ) := by
    rw [value_ofScaled, abs_mul, abs_of_pos (ten_zpow_pos _), Nat.cast_natAbs, Int.cast_abs]
  rw [reaches_iff, hvalue]
  constructor
  · intro h0
    have hn0 : n ≠ 0 := by
      rintro rfl
      exact h0 (by rw [value_ofScaled, Int.cast_zero, zero_mul])
    have h1 : (1 : ℚ) ≤ n.natAbs := by exact_mod_cast Int.natAbs_pos.mpr hn0
    exact (ten_zpow_le.mpr (by omega)).trans (le_mul_of_one_le_left (ten_zpow_pos _).le h1)
  · have hcast : (n.natAbs : ℚ) ≤ 10 ^ ((w : ℤ) + 4096) := by
      have h : (n.natAbs : ℚ) ≤ ((tens (w + 4096) : ℕ) : ℚ) := by exact_mod_cast hn
      rw [cast_tens_zpow] at h
      exact_mod_cast h
    calc (n.natAbs : ℚ) * 10 ^ (-w : ℤ)
        ≤ 10 ^ ((w : ℤ) + 4096) * 10 ^ (-w : ℤ) :=
          mul_le_mul_of_nonneg_right hcast (ten_zpow_pos _).le
      _ = 10 ^ ((w : ℤ) + 4096 + -w) := (ten_zpow_add _ _).symm
      _ ≤ 10 ^ (maxAdjusted + 1) := ten_zpow_le.mpr (by
          have hmax : maxAdjusted = 9000000000000000 := rfl
          omega)

theorem reaches_constant (k : Constant) (hc : (c.digits : ℤ) + 10 ≤ maxAdjusted)
    (hknown : c.known = {}) : (k.value c).Reaches := by
  have hw : ((c.digits + guardDigits : ℕ) : ℤ) ≤ maxAdjusted := hc
  cases k with
  | pi =>
    refine (reaches_ofScaled hw ?_).round c.positive
    rw [hknown]
    exact (natAbs_computePi_le _).trans (tens_le_tens (by omega))
  | e =>
    exact (reaches_ofScaled hw (natAbs_exp_one_le _)).round c.positive

theorem Kept.reaches (h : Kept c x) : x.Reaches := by
  obtain ⟨y, hy, rfl⟩ := h
  exact Reaches.round (.inl hy) c.positive

theorem inherited_reaches (hc : (c.digits : ℤ) + 10 ≤ maxAdjusted) (hknown : c.known = {}) :
    Inherited c Reaches where
  read h := .inl (inRange_of_read h)
  constant k := reaches_constant k hc hknown
  neg := Reaches.neg
  round h := h.round c.positive
  kept := Kept.reaches
  widened := Kept.reaches

end Decimal

namespace Preferences

/-- Whatever the tree, only the last rounding can take its value out of the range, and only to
the power of ten just above it. -/
theorem evaluate_reaches {p : Preferences} {a : Expr} {v : Decimal} (h : p.evaluate a = .ok v) :
    (v.InRange ∨ |v.value| = 10 ^ (Decimal.maxAdjusted + 1)) ∧
      ∃ x, a.eval p.angleUnit p.context = .ok x ∧ v = x.round p.context.digits ∧
        (v.InRange ↔ |x.value| < 10 ^ (Decimal.maxAdjusted + 1) -
          10 ^ (Decimal.maxAdjusted + 1 - p.context.digits) / 2) := by
  obtain ⟨x, hx, rfl⟩ := map_eq_ok.mp h
  have hdigits : (p.context.digits : ℤ) + Decimal.guardDigits ≤ Decimal.maxAdjusted := by
    have hle := p.digits_context_le_word
    have hmax : Decimal.maxAdjusted = 9000000000000000 := rfl
    have hguard : Decimal.guardDigits = 10 := rfl
    omega
  have hreaches := (Decimal.inherited_reaches hdigits rfl).eval a hx
  exact ⟨hreaches.round p.context.positive, x, hx, rfl,
    hreaches.inRange_round_iff p.context.positive⟩

theorem evaluate_reaches_nines :
    let nines : Expr := .literal "9.9999999999999999999999999999e9000000000000000".toList
    ∃ v : Decimal, ({} : Preferences).evaluate nines = .ok v ∧ ¬v.InRange ∧
      (v.InRange ∨ |v.value| = 10 ^ (Decimal.maxAdjusted + 1)) ∧
        ∃ x, nines.eval .degree ({} : Preferences).context = .ok x ∧
          v = x.round ({} : Preferences).context.digits ∧
          (v.InRange ↔ |x.value| < 10 ^ (Decimal.maxAdjusted + 1) -
            10 ^ (Decimal.maxAdjusted + 1 - ({} : Preferences).context.digits) / 2) := by
  have hread : (Decimal.read? "9.9999999999999999999999999999e9000000000000000".toList).map
      (·.round ({} : Preferences).context.digits) =
        some ⟨1, 9000000000000001, .inr (by decide)⟩ := by decide +kernel
  obtain ⟨x, hx, hround⟩ := Option.map_eq_some_iff.mp hread
  have hvalue : ({} : Preferences).evaluate
      (.literal "9.9999999999999999999999999999e9000000000000000".toList) =
        .ok ⟨1, 9000000000000001, .inr (by decide)⟩ := by
    rw [evaluate, Expr.eval, hx]
    exact congrArg Except.ok hround
  exact ⟨_, hvalue, by decide +kernel, evaluate_reaches hvalue⟩

end Preferences

end DeskCalculator
