import DeskCalculator.NamedFunction
import DeskCalculator.Proofs.Parity

/-!
# The symmetry of functions and powers

A function that is called by its name converts its angle, computes with more digits and rounds. None
of these steps sees the sign, so the function has the parity of what it computes. An integer power
of an opposite is the power or its opposite, by the parity of the exponent, on each of the ways in
which powers are computed.
-/

set_option autoImplicit false

namespace DeskCalculator

open DeskCalculator.Natural DeskCalculator.FixedPoint

namespace Decimal

variable {c : Context} (x y : Decimal)

/-! ### Angle units -/

theorem toRadians_neg (unit : AngleUnit) :
    (-x).toRadians unit c = (x.toRadians unit c).map (-·) := by
  unfold toRadians
  split
  · rfl
  · rw [mul_neg_left]
    cases x.mul (pi c) c with
    | none => rfl
    | some product => exact div_neg_left _ _

theorem ofRadians_neg (unit : AngleUnit) :
    (-x).ofRadians unit c = (x.ofRadians unit c).map (-·) := by
  unfold ofRadians
  split
  · rfl
  · next halfTurn _ =>
    rw [mul_neg_left]
    cases x.mul halfTurn c with
    | none => rfl
    | some product => exact div_neg_left _ _

theorem mul_neg_right : x.mul (-y) c = (x.mul y c).map (-·) := by
  unfold mul
  rw [← finish_neg, ← mul_neg]
  rfl

/-! ### Integer powers -/

def withParity (even : Bool) (p : Decimal) : Decimal := if even then p else -p

theorem withParity_true : withParity true = id := rfl

theorem withParity_false : withParity false = (-·) := rfl

theorem withParity_zero (even : Bool) : withParity even zero = zero := by
  cases even
  · exact neg_zero_eq
  · rfl

theorem withParity_comp_self (even : Bool) : withParity even ∘ withParity even = id := by
  cases even
  · exact funext neg_neg
  · rfl

theorem squareAndMultiply_neg_acc (n : ℕ) (base acc : Decimal) :
    squareAndMultiply c n base (-acc) = (squareAndMultiply c n base acc).map (-·) := by
  induction n using Nat.strongRecOn generalizing base acc with
  | ind n ih =>
    rw [squareAndMultiply, squareAndMultiply]
    by_cases hn : n = 0
    · rw [if_pos hn, if_pos hn]
      rfl
    · have hfactor : (if n % 2 = 1 then (-acc).mul base c else some (-acc)) =
          (if n % 2 = 1 then acc.mul base c else some acc).map (-·) := by
        split
        · exact mul_neg_left _ _
        · rfl
      rw [if_neg hn, if_neg hn, hfactor]
      cases if n % 2 = 1 then acc.mul base c else some acc with
      | none => rfl
      | some acc =>
        simp only [Option.map_some]
        split
        · rfl
        · cases base.mul base c with
          | none => rfl
          | some square => exact ih (n / 2) (by omega) square acc

/-- The square of the base does not depend on its sign, so only the lowest bit of the exponent
sees it. -/
theorem squareAndMultiply_neg_base (n : ℕ) (base acc : Decimal) :
    squareAndMultiply c n (-base) acc =
      (squareAndMultiply c n base acc).map (withParity (n % 2 = 0)) := by
  rw [squareAndMultiply, squareAndMultiply, mul_neg_neg, mul_neg_right]
  by_cases hn : n = 0
  · subst hn
    rfl
  rw [if_neg hn, if_neg hn]
  rcases Nat.mod_two_eq_zero_or_one n with heven | hodd
  · rw [if_neg (by omega), if_neg (by omega), decide_eq_true heven, withParity_true, Option.map_id,
      id]
  · rw [if_pos hodd, if_pos hodd, decide_eq_false (by omega), withParity_false]
    cases acc.mul base c with
    | none => rfl
    | some acc =>
      simp only [Option.map_some]
      split
      · rfl
      · cases base.mul base c with
        | none => rfl
        | some square => exact squareAndMultiply_neg_acc _ _ _

theorem naturalPower_neg (k : ℕ) :
    (-x).naturalPower k c = (x.naturalPower k c).map (withParity (k % 2 = 0)) := by
  unfold naturalPower
  split
  · show (ofScaled ((-x.mantissa) ^ k) _).bounded? = (ofScaled (x.mantissa ^ k) _).bounded?.map _
    rcases Nat.even_or_odd k with heven | hodd
    · rw [heven.neg_pow, decide_eq_true (Nat.even_iff.mp heven), withParity_true, Option.map_id]
      rfl
    · rw [hodd.neg_pow, decide_eq_false (by rw [Nat.odd_iff.mp hodd]; decide), withParity_false,
        ofScaled_neg, bounded?_neg]
      rfl
  · exact squareAndMultiply_neg_base k x one

theorem integerPower_neg (n : ℤ) :
    (-x).integerPower n c = (x.integerPower n c).map (withParity (n.natAbs % 2 = 0)) := by
  unfold integerPower
  rw [naturalPower_neg]
  cases x.naturalPower n.natAbs c with
  | none => rfl
  | some p =>
    simp only [Option.map_some]
    cases decide (n.natAbs % 2 = 0)
    · rw [withParity_false]
      split
      · exact div_neg_right _ _
      · exact bounded?_round_neg p
    · rw [withParity_true, Option.map_id]
      rfl

theorem isEven_of_isZero {y : Decimal} (hy : y.isZero = true) : y.isEven = true :=
  isEven_iff.mpr ⟨0, Even.zero, by rw [isZero_iff.mp hy, Int.cast_zero]⟩

theorem isEven_of_toWord? {y : Decimal} {n : ℤ} (hn : y.toWord? = some n) :
    y.isEven = decide (n.natAbs % 2 = 0) := by
  rw [Bool.eq_iff_iff, isEven_iff, (toWord?_eq_some_iff.mp hn).1, decide_eq_true_iff,
    ← Nat.even_iff, Int.natAbs_even]
  constructor
  · rintro ⟨m, hm, hmn⟩
    rwa [Int.cast_injective hmn]
  · exact fun h => ⟨n, h, rfl⟩

theorem pow_neg {y : Decimal} (hy : y.isInteger = true) :
    (-x).pow y c = (x.pow y c).map (withParity y.isEven) := by
  unfold pow
  rw [isZero_neg]
  split
  · next hzero => exact congrArg some (if_pos (isEven_of_isZero hzero)).symm
  split
  · split
    · rfl
    · exact congrArg some (withParity_zero _).symm
  next hx =>
  cases hword : y.toWord? with
  | some n =>
    rw [isEven_of_toWord? hword]
    exact integerPower_neg x n
  | none =>
    simp only [isNegative_neg hx, abs_opposite]
    show (if _ then (x.abs.powerOfPositive y c).map (withParity y.isEven) else _) =
      (if _ then (x.abs.powerOfPositive y c).map (withParity y.isEven) else _).map _
    by_cases hneg : x.isNegative = true
    · rw [if_neg (by simp [hneg]), if_pos hneg, Option.map_map, withParity_comp_self,
        Option.map_id, abs, if_pos hneg]
      rfl
    · rw [if_pos (by simp [hneg]), if_neg hneg, abs_of_not_isNegative hneg]

end Decimal

/-! ### Functions by name -/

namespace NamedFunction

open DeskCalculator.Decimal

variable {c : Context} (x : Decimal) (others : List Decimal) (unit : AngleUnit)

theorem orOutOfRange_map (g : Decimal → Decimal) (o : Option Decimal) :
    orOutOfRange (o.map g) = (orOutOfRange o).map g := by
  cases o <;> rfl

theorem bind_map_neg {o : Option Decimal} {f : Decimal → Option Decimal} {g : Decimal → Decimal}
    (hf : ∀ y, f (-y) = (f y).map g) : (o.map (-·)).bind f = (o.bind f).map g := by
  cases o with
  | none => rfl
  | some y => exact hf y

theorem compute_neg_of_odd (hpi : Computed computePi c.known.pi) {f : NamedFunction}
    (hf : f ∈ [sin, tan, asin, atan, cbrt, cube]) :
    f.compute (-x) others unit c = (f.compute x others unit c).map (-·) := by
  simp only [List.mem_cons, List.not_mem_nil, or_false] at hf
  rcases hf with rfl | rfl | rfl | rfl | rfl | rfl <;> simp only [compute, ← orOutOfRange_map] <;>
    congr 1
  · rw [toRadians_neg, bind_map_neg fun y => Decimal.sin_neg y hpi]
  · rw [toRadians_neg, bind_map_neg fun y => Decimal.tan_neg y hpi]
  · rw [Decimal.asin_neg, bind_map_neg fun y => ofRadians_neg y unit]
  · rw [Decimal.atan_neg, bind_map_neg fun y => ofRadians_neg y unit]
  · exact root_neg x (by decide)
  · rw [mul_neg_neg]
    cases x.mul x c with
    | none => rfl
    | some square => exact mul_neg_right _ _

theorem compute_neg_of_even (hpi : Computed computePi c.known.pi) {f : NamedFunction}
    (hf : f ∈ [cos, abs, square]) :
    f.compute (-x) others unit c = f.compute x others unit c := by
  simp only [List.mem_cons, List.not_mem_nil, or_false] at hf
  rcases hf with rfl | rfl | rfl <;> simp only [compute] <;> congr 1
  · have hid : ∀ y : Decimal, (-y).cos c = (y.cos c).map id := fun y => by
      rw [Decimal.cos_neg y hpi, Option.map_id, id]
    rw [toRadians_neg, bind_map_neg hid, Option.map_id, id]
  · exact abs_opposite x
  · exact mul_neg_neg x x

theorem apply_neg_of_odd (hpi : Computed computePi c.known.pi) {f : NamedFunction}
    (hf : f ∈ [sin, tan, asin, atan, cbrt, cube]) :
    f.apply (-x) others unit c = (f.apply x others unit c).map (-·) := by
  have hcompute := compute_neg_of_odd (c := c.widen guardDigits) x others unit hpi hf
  unfold apply
  rw [hcompute]
  cases f.compute x others unit (c.widen guardDigits) with
  | error e => rfl
  | ok r => exact congrArg Except.ok (round_neg r c.positive)

theorem apply_neg_of_even (hpi : Computed computePi c.known.pi) {f : NamedFunction}
    (hf : f ∈ [cos, abs, square]) :
    f.apply (-x) others unit c = f.apply x others unit c := by
  have hcompute := compute_neg_of_even (c := c.widen guardDigits) x others unit hpi hf
  unfold apply
  rw [hcompute]

end NamedFunction

/-! ### All operations -/

namespace Decimal

/-- With the digits of the circle constant that were computed before, every operation treats the
two signs alike to the last digit, and fails for both or for neither. -/
theorem sign_symmetry (c : Context) (hpi : Computed computePi c.known.pi) (unit : AngleUnit)
    (others : List Decimal) (a b : Decimal) :
    (-a).add (-b) c = (a.add b c).map (-·) ∧
    (-a).mul b c = (a.mul b c).map (-·) ∧
    ((-a).div b c = (a.div b c).map (-·) ∧ a.div (-b) c = (a.div b c).map (-·)) ∧
    ((-a).rem b c = (a.rem b c).map (-·) ∧ a.rem (-b) c = a.rem b c) ∧
    (∀ k, Odd k → (-a).root k c = (a.root k c).map (-·)) ∧
    (∀ f ∈ [NamedFunction.sin, .tan, .asin, .atan, .cbrt, .cube],
      f.apply (-a) others unit c = (f.apply a others unit c).map (-·)) ∧
    (∀ f ∈ [NamedFunction.cos, .abs, .square],
      f.apply (-a) others unit c = f.apply a others unit c) ∧
    ∀ (y : Decimal) (n : ℤ), y.value = n →
      (Even n → (-a).pow y c = a.pow y c) ∧ (Odd n → (-a).pow y c = (a.pow y c).map (-·)) := by
  refine ⟨add_neg_neg a b, mul_neg_left a b, ⟨div_neg_left a b, div_neg_right a b⟩,
    ⟨rem_neg_left a b, rem_neg_right a b⟩, fun k hk => root_neg a (Nat.odd_iff.mp hk),
    fun f hf => NamedFunction.apply_neg_of_odd a others unit hpi hf,
    fun f hf => NamedFunction.apply_neg_of_even a others unit hpi hf, fun y n hy => ?_⟩
  have hpow := pow_neg (c := c) a (isInteger_iff.mpr ⟨n, hy⟩)
  constructor
  · intro hn
    rw [hpow, isEven_iff.mpr ⟨n, hn, hy⟩, withParity_true, Option.map_id, id]
  · intro hn
    have hodd : y.isEven = false := Bool.eq_false_iff.mpr fun heven => by
      obtain ⟨m, hm, hym⟩ := isEven_iff.mp heven
      rw [← Int.cast_injective (hy.symm.trans hym)] at hm
      exact Int.not_even_iff_odd.mpr hn hm
    rw [hpow, hodd, withParity_false]

theorem sign_symmetry_after_requests :
    let known := { pi := afterRequests computePi [50, 80] }
    let c : Context := { digits := 28, positive := by decide, known := known }
    Computed computePi known.pi ∧
    NamedFunction.sin.apply (-ofInt 30) [] .degree c =
      (NamedFunction.sin.apply (ofInt 30) [] .degree c).map (-·) ∧
    (-ofInt 3).pow (ofInt (10 ^ 20 + 1)) c = ((ofInt 3).pow (ofInt (10 ^ 20 + 1)) c).map (-·) := by
  intro known c
  have hpi : Computed computePi known.pi := computed_afterRequests computePi [50, 80]
  have hsin := sign_symmetry c hpi .degree [] (ofInt 30) (ofInt 2)
  have hpow := sign_symmetry c hpi .degree [] (ofInt 3) (ofInt 2)
  have hvalue : (ofInt (10 ^ 20 + 1)).value = ((10 ^ 20 + 1 : ℤ) : ℚ) := by
    rw [ofInt, value_ofScaled, zpow_zero, mul_one]
  exact ⟨hpi, hsin.2.2.2.2.2.1 .sin List.mem_cons_self,
    (hpow.2.2.2.2.2.2.2 _ _ hvalue).2 (by decide)⟩

end Decimal

end DeskCalculator
