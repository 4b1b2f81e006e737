import DeskCalculator.Expression.Evaluation
import DeskCalculator.Proofs.DoubleRounding
import DeskCalculator.Proofs.Outcome
import DeskCalculator.Proofs.Quotient

/-!
# Functions that abbreviate an operator

The inverse, the square and the power have the exact value of a quotient, a product and a power
that an operator has too. The operator rounds it once. The function rounds it with its guard
digits, holds that to the range, and rounds again. So the two agree unless the first rounding
ends on a midpoint and leads the second one astray, or falls below the range.
-/

set_option autoImplicit false

namespace DeskCalculator

open DeskCalculator.Natural DeskCalculator.Decimal

/-! ### Rounding at both ends of the range -/

namespace IsRounding

variable {digits guard : ℕ} {q r s : ℚ}

theorem abs_lt_of_abs_lt (hg : 0 < guard) (hr : IsRounding digits q r)
    (hs : IsRounding guard q s) (hlow : |s| < 10 ^ (-maxAdjusted)) :
    |r| < 10 ^ (maxAdjusted + 1) := by
  have hq : |q| < 10 ^ (-maxAdjusted) :=
    not_le.mp fun hle => absurd (hs.ten_zpow_le_abs hg hle) (not_le.mpr hlow)
  exact (hr.abs_le_ten_zpow hq).trans_lt (ten_zpow_lt.mpr (by decide))

theorem ten_zpow_le_of_widened {e : ℤ} (hd : 0 < digits) (hr : IsRounding digits q r)
    (hs : IsRounding (digits + guard) q s) (he : 10 ^ e ≤ |s|) : 10 ^ e ≤ |r| := by
  rcases le_or_gt (10 ^ e) |q| with hq | hq
  · exact hr.ten_zpow_le_abs hd hq
  · have hcarry := (hs.eq_ten_zpow_iff (by omega) hq).mp (le_antisymm (hs.abs_le_ten_zpow hq) he)
    have hunit : (10 : ℚ) ^ (e - ((digits + guard : ℕ) : ℤ)) ≤ 10 ^ (e - (digits : ℤ)) :=
      ten_zpow_le.mpr (by omega)
    exact ((hr.eq_ten_zpow_iff hd hq).mpr (by linarith)).ge

end IsRounding

namespace Decimal

variable {c : Context} {q : ℚ} {x : Decimal} {o w : Option Decimal}

/-! ### The last rounding -/

def settle (c : Context) (o : Option Decimal) : Except CalcError Decimal :=
  (orOutOfRange o).map (·.round c.digits)

theorem settle_of_inRange (h : x.InRange) : settle c x.bounded? = .ok (x.round c.digits) := by
  rw [bounded?, if_pos h]
  rfl

theorem not_held_of_not_inRange (h : ¬x.InRange) : ¬Held x.value :=
  fun hheld => h (inRange_of_abs hheld.2 fun _ => hheld.1)

theorem settle_of_not_inRange (h : ¬x.InRange) : settle c x.bounded? =
    if |x.value| < 10 ^ (maxAdjusted + 1) then .ok zero else .error .outOfRange := by
  rw [bounded?_of_not_held (not_held_of_not_inRange h)]
  split
  · exact congrArg Except.ok (round_zero c)
  · rfl

/-! ### Two roundings of one value -/

/-- What comes of one exact value `q`, by a function as `f` and by an operator as `o`: the operator
rounds it to `r`, and the function first to `s`, with its guard digits. Left out is the case of a
last rounding of the function that carries `s` out of the range. -/
structure Compared (digits : ℕ) (q : ℚ) (r s : Decimal) (f o : Except CalcError Decimal) :
    Prop where
  once : IsRounding digits q r.value
  first : IsRounding (digits + NamedFunction.guardDigits) q s.value
  inside : s.InRange → r.InRange → f = .ok (s.round digits) ∧ o = .ok r ∧
    (f = o ↔ ¬Strays digits q s.value (s.round digits).value)
  outside : ¬s.InRange → ¬r.InRange → f = o
  below : ¬s.InRange → r.InRange → f = .ok zero ∧ o = .ok r

theorem exists_compared (ho : Rounds c q o) (hw : Rounds (c.widen NamedFunction.guardDigits) q w) :
    ∃ r s, Compared c.digits q r s (settle c w) (settle c o) := by
  obtain ⟨r, hlength, hr, rfl⟩ := ho
  obtain ⟨s, -, hs, rfl⟩ := hw
  rw [digits_widen] at hs
  have hround : r.round c.digits = r := round_of_length_le hlength
  refine ⟨r, s, hr, hs, fun hin hin' => ?_, fun hout hout' => ?_, fun hout hin => ?_⟩
  · rw [settle_of_inRange hin, settle_of_inRange hin', hround]
    refine ⟨rfl, rfl, ?_⟩
    rw [Except.ok.injEq, ← value_eq_iff]
    exact hs.twice_eq_iff c.positive (by decide) hr (round_isRounding s c.positive)
  · -- both lie above the range, or both below it
    have hguard : 0 < c.digits + NamedFunction.guardDigits := Nat.add_pos_left c.positive _
    have hlow : ∀ {x : Decimal}, ¬x.InRange → |x.value| < 10 ^ (maxAdjusted + 1) →
        |x.value| < 10 ^ (-maxAdjusted) := fun hx hlt =>
      not_le.mp fun hle => not_held_of_not_inRange hx ⟨hle, hlt⟩
    have hiff : |s.value| < 10 ^ (maxAdjusted + 1) ↔ |r.value| < 10 ^ (maxAdjusted + 1) :=
      ⟨fun hlt => hr.abs_lt_of_abs_lt hguard hs (hlow hout hlt),
        fun hlt => hs.abs_lt_of_abs_lt c.positive hr (hlow hout' hlt)⟩
    rw [settle_of_not_inRange hout, settle_of_not_inRange hout']
    simp only [hiff]
  · have hlt : |s.value| < 10 ^ (maxAdjusted + 1) := not_le.mp fun hle =>
      absurd (hr.ten_zpow_le_of_widened c.positive hs hle) (not_le.mpr hin.abs_lt)
    rw [settle_of_not_inRange hout, if_pos hlt, settle_of_inRange hin, hround]
    exact ⟨rfl, rfl⟩

end Decimal

/-! ### Calls and operators -/

namespace Preferences

variable (p : Preferences) {a b : Expr} {x y : Decimal}

theorem evaluate_call {name : Text} {f : NamedFunction} (hf : NamedFunction.ofName? name = some f)
    {args : List Expr} {others : List Decimal}
    (hargs : Expr.evalAll p.angleUnit p.context args = .ok (x :: others)) :
    p.evaluate (.call name args) =
      (f.compute x others p.angleUnit (p.context.widen NamedFunction.guardDigits)).map
        (·.round p.context.digits) := by
  rw [evaluate, Expr.eval, hf]
  simp only [hargs]
  show (f.apply x others p.angleUnit p.context).map (·.round p.context.digits) = _
  rw [NamedFunction.apply]
  cases f.compute x others p.angleUnit (p.context.widen NamedFunction.guardDigits) with
  | error e => rfl
  | ok z => exact congrArg Except.ok (round_round z p.context.positive)

theorem evaluate_binary (op : BinaryOp) (ha : a.eval p.angleUnit p.context = .ok x)
    (hb : b.eval p.angleUnit p.context = .ok y) :
    p.evaluate (.binary op a b) = (op.apply x y p.context).map (·.round p.context.digits) := by
  rw [evaluate, Expr.eval, ha, hb]
  rfl

theorem evalAll_single (ha : a.eval p.angleUnit p.context = .ok x) :
    Expr.evalAll p.angleUnit p.context [a] = .ok [x] := by
  rw [Expr.evalAll, ha]
  rfl

theorem evalAll_pair (ha : a.eval p.angleUnit p.context = .ok x)
    (hb : b.eval p.angleUnit p.context = .ok y) :
    Expr.evalAll p.angleUnit p.context [a, b] = .ok [x, y] := by
  rw [Expr.evalAll, ha, p.evalAll_single hb]
  rfl

theorem eval_literal_one : (Expr.literal ['1']).eval p.angleUnit p.context = .ok one := by
  have hread : read? ['1'] = some one := by decide +kernel
  rw [Expr.eval, hread]

theorem evaluate_inv (ha : a.eval p.angleUnit p.context = .ok x) (hx : x.value ≠ 0) :
    p.evaluate (.call "inv".toList [a]) =
        settle p.context (one.div x (p.context.widen NamedFunction.guardDigits)) ∧
      p.evaluate (.binary .div (.literal ['1']) a) = settle p.context (one.div x p.context) := by
  have hx0 : x.isZero ≠ true := fun h => hx (isZero_iff.mp h)
  have hname : NamedFunction.ofName? "inv".toList = some .inv := by decide +kernel
  rw [p.evaluate_call hname (p.evalAll_single ha), p.evaluate_binary .div p.eval_literal_one ha,
    NamedFunction.compute, BinaryOp.apply, if_neg hx0, if_neg hx0]
  exact ⟨rfl, rfl⟩

theorem evaluate_square (ha : a.eval p.angleUnit p.context = .ok x) :
    p.evaluate (.call "square".toList [a]) =
        settle p.context (x.mul x (p.context.widen NamedFunction.guardDigits)) ∧
      p.evaluate (.binary .mul a a) = settle p.context (x.mul x p.context) := by
  have hname : NamedFunction.ofName? "square".toList = some .square := by decide +kernel
  rw [p.evaluate_call hname (p.evalAll_single ha), p.evaluate_binary .mul ha ha]
  exact ⟨rfl, rfl⟩

theorem evaluate_pow (ha : a.eval p.angleUnit p.context = .ok x)
    (hb : b.eval p.angleUnit p.context = .ok y) :
    p.evaluate (.call "pow".toList [a, b]) =
        settle p.context (x.pow y (p.context.widen NamedFunction.guardDigits)) ∧
      p.evaluate (.binary .pow a b) = settle p.context (x.pow y p.context) := by
  have hname : NamedFunction.ofName? "pow".toList = some .pow := by decide +kernel
  rw [p.evaluate_call hname (p.evalAll_pair ha hb), p.evaluate_binary .pow ha hb]
  exact ⟨rfl, rfl⟩

/-- An inverse, a square or a power of an integer order up to 1024 has the same exact value by
name and by its operator, and the outcomes compare as two roundings of that value. A power is
held to the range before it is inverted, and outside it the outcomes are the same. A number
that is inverted is so short that 32 bits count the zeros put behind the dividend. -/
theorem evaluate_abbreviation (ha : a.eval p.angleUnit p.context = .ok x) :
    (x.value ≠ 0 → p.context.digits + 6 + x.length < UInt32.size →
      ∃ r s, Compared p.context.digits (1 / x.value) r s
        (p.evaluate (.call "inv".toList [a])) (p.evaluate (.binary .div (.literal ['1']) a))) ∧
    (∃ r s, Compared p.context.digits (x.value * x.value) r s
      (p.evaluate (.call "square".toList [a])) (p.evaluate (.binary .mul a a))) ∧
    ∀ {b : Expr} {y : Decimal} {n : ℤ}, b.eval p.angleUnit p.context = .ok y → y.value = n →
      n.natAbs ≤ 1024 →
      (Held (x.value ^ n.natAbs) →
        (n < 0 → ∀ z : Decimal, z.value = x.value ^ n.natAbs →
          p.context.digits + 6 + z.length < UInt32.size) →
        ∃ r s, Compared p.context.digits (x.value ^ n) r s
          (p.evaluate (.call "pow".toList [a, b])) (p.evaluate (.binary .pow a b))) ∧
      (¬Held (x.value ^ n.natAbs) →
        p.evaluate (.call "pow".toList [a, b]) = p.evaluate (.binary .pow a b)) := by
  have hwide : (p.context.widen NamedFunction.guardDigits).digits = p.context.digits + 5 :=
    digits_widen _ _
  refine ⟨fun hx hsize => ?_, ?_, fun {b y n} hb hy hn => ?_⟩
  · obtain ⟨hf, ho⟩ := p.evaluate_inv ha hx
    have hone := one.length_pos
    rw [hf, ho, ← value_one]
    exact exists_compared (rounds_div one hx (by omega)) (rounds_div one hx (by omega))
  · obtain ⟨hf, ho⟩ := p.evaluate_square ha
    rw [hf, ho]
    exact exists_compared (rounds_mul x x) (rounds_mul x x)
  · obtain ⟨hf, ho⟩ := p.evaluate_pow ha hb
    rw [hf, ho]
    refine ⟨fun hheld hsize => ?_, fun hheld => ?_⟩
    · refine exists_compared (rounds_pow hy hn hheld fun hneg z hz => ?_)
        (rounds_pow hy hn hheld fun hneg z hz => ?_) <;>
      · have hlt := hsize hneg z hz
        omega
    · rw [pow_of_not_held hy hn hheld, pow_of_not_held hy hn hheld]

theorem evaluate_abbreviation_three :
    let three : Expr := .literal ['3']
    let minusTwo : Expr := .literal ['-', '2']
    (∃ r s, Compared 28 (1 / 3) r s (({} : Preferences).evaluate (.call "inv".toList [three]))
      (({} : Preferences).evaluate (.binary .div (.literal ['1']) three))) ∧
    ∃ r s, Compared 28 (3 ^ (-2 : ℤ)) r s
      (({} : Preferences).evaluate (.call "pow".toList [three, minusTwo]))
      (({} : Preferences).evaluate (.binary .pow three minusTwo)) := by
  have hthree : read? ['3'] = some ⟨3, 0, .inr (by decide)⟩ := by decide +kernel
  have hminusTwo : read? ['-', '2'] = some ⟨-2, 0, .inr (by decide)⟩ := by decide +kernel
  have ha : (Expr.literal ['3']).eval ({} : Preferences).angleUnit ({} : Preferences).context =
      .ok ⟨3, 0, .inr (by decide)⟩ := by rw [Expr.eval, hthree]
  have hb : (Expr.literal ['-', '2']).eval ({} : Preferences).angleUnit
      ({} : Preferences).context = .ok ⟨-2, 0, .inr (by decide)⟩ := by rw [Expr.eval, hminusTwo]
  have hvalue : (⟨3, 0, .inr (by decide)⟩ : Decimal).value = 3 := by norm_num [value]
  have hheld : Held (3 ^ (-2 : ℤ).natAbs) := by
    have hnine : |(3 : ℚ) ^ (-2 : ℤ).natAbs| = 9 := by norm_num
    constructor <;> rw [hnine]
    · exact (ten_zpow_le.mpr (show -maxAdjusted ≤ 0 by decide)).trans (by norm_num)
    · exact lt_of_lt_of_le (by norm_num) (ten_zpow_le.mpr (show 1 ≤ maxAdjusted + 1 by decide))
  have hsize : (-2 : ℤ) < 0 → ∀ z : Decimal, z.value = 3 ^ (-2 : ℤ).natAbs →
      ({} : Preferences).context.digits + 6 + z.length < UInt32.size := by
    intro _ z hz
    obtain rfl : z = ⟨9, 0, .inr (by decide)⟩ := value_injective (hz.trans (by norm_num [value]))
    decide +kernel
  obtain ⟨hinv, -, hpow⟩ := evaluate_abbreviation {} ha
  rw [hvalue] at hinv hpow
  exact ⟨hinv (by norm_num) (by decide +kernel),
    (hpow (n := -2) hb (by norm_num [value]) (by decide)).1 hheld hsize⟩

/-- A square just above a midpoint is rounded up by the operator, while the function first rounds
it to the midpoint and then to the even neighbour; so with an inverse and a power. -/
theorem evaluate_abbreviation_ne :
    let x : Expr := .literal "1.00000000000000000000000000025".toList
    let z : Expr := .literal "9.999999999999999999999999985000000000000000000000000022500".toList
    ({} : Preferences).evaluate (.call "square".toList [x]) ≠
        ({} : Preferences).evaluate (.binary .mul x x) ∧
      ({} : Preferences).evaluate (.call "inv".toList [z]) ≠
        ({} : Preferences).evaluate (.binary .div (.literal ['1']) z) ∧
      ({} : Preferences).evaluate (.call "pow".toList [x, .literal ['2']]) ≠
        ({} : Preferences).evaluate (.binary .pow x (.literal ['2'])) := by
  refine ⟨fun h => ?_, fun h => ?_, fun h => ?_⟩ <;>
    exact absurd (congrArg Except.toOption h) (by decide +kernel)

end Preferences

end DeskCalculator
