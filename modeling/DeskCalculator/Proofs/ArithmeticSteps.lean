import DeskCalculator.Decimal.Arithmetic
import DeskCalculator.Proofs.Outcome
import DeskCalculator.Proofs.Primitive
import DeskCalculator.Proofs.Value

/-!
# The steps of the arithmetic

Rounding, comparing and the four operations as steps over primitives, with a proof for each that
its steps realize it: every divisor is other than zero and every number of digits is not negative.
-/

set_option autoImplicit false

namespace DeskCalculator.Decimal

open DeskCalculator.Natural DeskCalculator.Steps

/-! ### Canonical form, rounding and order -/

def ofScaledSteps (m e : Int) : Steps Decimal :=
  if h : m = 0 then return zero
  else do
    let ⟨power, hpower⟩ ← tenTo (trailingZeros m.natAbs)
    let ⟨q, hq⟩ ← quotient m power
    return ⟨q, e + trailingZeros m.natAbs,
      .inr (by rw [hq, hpower]; exact not_ten_dvd_tdiv_trailingZeros m h)⟩

def roundSteps (x : Decimal) (digits : Nat) : Steps Decimal :=
  let kept := max digits 1
  if x.length ≤ kept then return x
  else do
    let ⟨removed, _⟩ ← takeAway x.length kept
    let ⟨power, _⟩ ← tenTo removed
    let ⟨q, _⟩ ← quotient x.mantissa.natAbs power
    let ⟨r, _⟩ ← remainder x.mantissa.natAbs power
    let ⟨parity, _⟩ ← remainder q 2
    let magnitude := if power < 2 * r ∨ 2 * r = power ∧ parity ≠ 0 then q + 1 else q
    ofScaledSteps (if x.isNegative then -magnitude else magnitude) (x.exponent + removed)

def finishSteps (m e : Int) (c : Context) : Steps Decimal := do
  let x ← ofScaledSteps m e
  let rounded ← roundSteps x c.digits
  within rounded.bounded?

def mantissaAtSteps (x : Decimal) (e : Int) : Steps Int := do
  let ⟨gap, _⟩ ← toSize (x.exponent - e)
  let ⟨power, _⟩ ← tenTo gap
  return x.mantissa * power

def cmpMagnitudeSteps (x y : Decimal) : Steps Ordering :=
  if x.adjusted = y.adjusted then do
    let e := min x.exponent y.exponent
    let a ← mantissaAtSteps x e
    let b ← mantissaAtSteps y e
    return compare a.natAbs b.natAbs
  else return compare x.adjusted y.adjusted

def cmpSteps (x y : Decimal) : Steps Ordering :=
  match compare x.mantissa.sign y.mantissa.sign with
  | .eq =>
    if x.mantissa = 0 then return .eq
    else if x.isNegative then cmpMagnitudeSteps y x
    else cmpMagnitudeSteps x y
  | order => return order

/-! ### The operations -/

def alignedSteps (a b : Decimal) (c : Context) : Steps Decimal := do
  let e := min a.exponent b.exponent
  let m ← mantissaAtSteps a e
  let n ← mantissaAtSteps b e
  finishSteps (m + n) e c

def settleSteps (x : Decimal) (c : Context) : Steps Decimal := do
  let rounded ← roundSteps x c.digits
  within rounded.bounded?

def addSteps (x y : Decimal) (c : Context) : Steps Decimal :=
  if y.isZero then settleSteps x c
  else if x.isZero then settleSteps y c
  else alignedSteps (x.besides y c) (y.besides x c) c

def subSteps (x y : Decimal) (c : Context) : Steps Decimal := addSteps x (-y) c

def mulSteps (x y : Decimal) (c : Context) : Steps Decimal :=
  finishSteps (x.mantissa * y.mantissa) (x.exponent + y.exponent) c

def divSteps (x y : Decimal) (c : Context) : Steps Decimal :=
  if y.isZero then within none
  else if x.isZero then return zero
  else do
    let ⟨shift, _⟩ ← toSize (max (c.digits + 2 + y.length - x.length : Int) 0)
    let ⟨power, _⟩ ← tenTo shift
    let ⟨q, _⟩ ← quotient (x.mantissa.natAbs * power) y.mantissa.natAbs
    let ⟨r, _⟩ ← remainder (x.mantissa.natAbs * power) y.mantissa.natAbs
    let e := x.exponent - y.exponent - shift
    let sign : Int := if x.isNegative = y.isNegative then 1 else -1
    if r = 0 then finishSteps (sign * q) e c else finishSteps (sign * (q * 10 + 1)) (e - 1) c

def remSteps (x y : Decimal) (c : Context) : Steps Decimal :=
  if y.isZero then within none
  else do
    let order ← cmpSteps x.abs y.abs
    if order = .lt then settleSteps x c
    else
      let a := x.mantissa.natAbs
      let b := y.mantissa.natAbs
      let sign : Int := if x.isNegative then -1 else 1
      if y.exponent ≤ x.exponent then do
        let ⟨power, _⟩ ← modularPower 10 (x.exponent - y.exponent) b
        let ⟨r, _⟩ ← remainder (a * power) b
        finishSteps (sign * r) y.exponent c
      else do
        let ⟨gap, _⟩ ← toSize (y.exponent - x.exponent)
        let ⟨power, _⟩ ← tenTo gap
        let ⟨r, _⟩ ← remainder a (b * power)
        finishSteps (sign * r) x.exponent c

/-! ### What they realize -/

theorem realizes_ofScaled (m e : Int) : Realizes (ofScaledSteps m e) (.ok (ofScaled m e)) := by
  unfold ofScaledSteps ofScaled
  split
  · exact realizes_ok _
  · refine realizes_tenTo fun _ => ?_
    refine realizes_quotient (cast_tens_ne_zero _) ?_
    exact realizes_ok _

theorem halfEven_eq (n d : Nat) : ((halfEven n d : Nat) : Int) =
    if (d : Int) < 2 * (n : Int).tmod d ∨
        2 * (n : Int).tmod d = d ∧ ((n : Int).tdiv d).tmod 2 ≠ 0 then (n : Int).tdiv d + 1
      else (n : Int).tdiv d := by
  have hparity : (n : Int).tdiv d = (n / d : Nat) := (Int.ofNat_tdiv n d).symm
  have hrest : (n : Int).tmod d = (n % d : Nat) := (Int.ofNat_tmod n d).symm
  rw [hparity, hrest, Int.tmod_eq_emod_of_nonneg (Int.natCast_nonneg _), halfEven]
  split_ifs <;> omega

theorem realizes_round (x : Decimal) (digits : Nat) :
    Realizes (roundSteps x digits) (.ok (x.round digits)) := by
  unfold roundSteps round
  simp only
  split
  · exact realizes_ok _
  · next hlong =>
    have hpower := cast_tens_ne_zero (x.length - max digits 1)
    refine realizes_takeAway (Nat.le_of_not_le hlong) (realizes_tenTo fun _ => ?_)
    refine realizes_quotient hpower (realizes_remainder hpower ?_)
    refine realizes_remainder (by decide) ?_
    simp only [← halfEven_eq]
    exact realizes_ofScaled _ _

theorem realizes_settle (x : Decimal) (c : Context) :
    Realizes (settleSteps x c) (orOutOfRange (x.round c.digits).bounded?) :=
  (realizes_round x c.digits).pass fun _ => realizes_within _

theorem realizes_finish (m e : Int) (c : Context) :
    Realizes (finishSteps m e c) (orOutOfRange (finish m e c)) :=
  (realizes_ofScaled m e).pass fun _ => realizes_settle (ofScaled m e) c

theorem realizes_mantissaAt {β : Type} {x : Decimal} {e : Int} (he : e ≤ x.exponent)
    {f : Int → Steps β} {r : Except CalcError β}
    (h : (x.exponent - e).toNat < UInt32.size →
      Realizes (f (x.mantissa * tens (x.exponent - e).toNat)) r) :
    Realizes (mantissaAtSteps x e >>= f) r := by
  refine realizes_assoc (realizes_toSize (Int.sub_nonneg_of_le he) ?_)
  exact realizes_assoc (realizes_tenTo h)

theorem realizes_cmpMagnitude (x y : Decimal) :
    Realizes (cmpMagnitudeSteps x y) (.ok (x.cmpMagnitude y)) := by
  unfold cmpMagnitudeSteps cmpMagnitude
  split
  · refine realizes_mantissaAt (Int.min_le_left _ _) fun _ => ?_
    refine realizes_mantissaAt (Int.min_le_right _ _) fun _ => ?_
    simp only [Int.natAbs_mul, Int.natAbs_natCast]
    exact realizes_ok _
  · exact realizes_ok _

theorem realizes_cmp (x y : Decimal) : Realizes (cmpSteps x y) (.ok (x.cmp y)) := by
  unfold cmpSteps cmp
  cases compare x.mantissa.sign y.mantissa.sign with
  | lt | gt => exact realizes_ok _
  | eq =>
    simp only
    split
    · exact realizes_ok _
    · split
      · exact realizes_cmpMagnitude y x
      · exact realizes_cmpMagnitude x y

theorem realizes_aligned (a b : Decimal) (c : Context) :
    Realizes (alignedSteps a b c) (orOutOfRange (aligned a b c)) := by
  unfold alignedSteps aligned
  refine realizes_mantissaAt (Int.min_le_left _ _) fun ha => ?_
  refine realizes_mantissaAt (Int.min_le_right _ _) fun hb => ?_
  simp only [powerOfTen_eq _ ha, powerOfTen_eq _ hb]
  exact realizes_finish _ _ c

theorem realizes_add (x y : Decimal) (c : Context) :
    Realizes (addSteps x y c) (orOutOfRange (x.add y c)) := by
  unfold addSteps add
  split
  · exact realizes_settle x c
  · split
    · exact realizes_settle y c
    · exact realizes_aligned _ _ c

theorem realizes_sub (x y : Decimal) (c : Context) :
    Realizes (subSteps x y c) (orOutOfRange (x.sub y c)) := realizes_add x (-y) c

theorem realizes_mul (x y : Decimal) (c : Context) :
    Realizes (mulSteps x y c) (orOutOfRange (x.mul y c)) := realizes_finish _ _ c

theorem natAbs_mantissa_ne_zero {y : Decimal} (hy : ¬y.isZero = true) :
    y.mantissa.natAbs ≠ 0 := by
  simpa [isZero] using hy

theorem realizes_div (x y : Decimal) (c : Context) :
    Realizes (divSteps x y c) (orOutOfRange (x.div y c)) := by
  unfold divSteps div
  split
  · exact realizes_within none
  next hy =>
  split
  · exact realizes_ok _
  have hdivisor := Int.natCast_ne_zero.mpr (natAbs_mantissa_ne_zero hy)
  have hshift : (max (c.digits + 2 + y.length - x.length : Int) 0).toNat =
      c.digits + 2 + y.length - x.length := by omega
  have hwitness : ∀ q : Nat, (q : Int) * 10 + 1 = witness q := fun q => rfl
  refine realizes_toSize (Int.le_max_right _ _) (realizes_tenTo fun hlong => ?_)
  refine realizes_quotient hdivisor (realizes_remainder hdivisor ?_)
  rw [hshift] at hlong
  simp only [hshift, powerOfTen_eq _ hlong, ← Int.natCast_mul, ← Int.ofNat_tdiv, ← Int.ofNat_tmod,
    Int.natCast_eq_zero, hwitness]
  split
  · exact realizes_finish _ _ c
  · exact realizes_finish _ _ c

theorem realizes_rem (x y : Decimal) (c : Context) :
    Realizes (remSteps x y c) (orOutOfRange (x.rem y c)) := by
  unfold remSteps rem
  split
  · exact realizes_within none
  next hy =>
  have hdivisor := natAbs_mantissa_ne_zero hy
  refine (realizes_cmp x.abs y.abs).pass fun _ => ?_
  split
  · exact realizes_settle x c
  simp only
  split
  · next hle =>
    refine realizes_modularPower hdivisor (Int.sub_nonneg_of_le hle) ?_
    refine realizes_remainder (Int.natCast_ne_zero.mpr hdivisor) ?_
    simp only [← Int.natCast_mul, ← Int.ofNat_tmod]
    exact realizes_finish _ _ c
  · next hle =>
    refine realizes_toSize (by omega) (realizes_tenTo fun _ => ?_)
    refine realizes_remainder ?_ ?_
    · exact_mod_cast Nat.mul_ne_zero hdivisor (tens_ne_zero _)
    · simp only [← Int.natCast_mul, ← Int.ofNat_tmod]
      exact realizes_finish _ _ c

end DeskCalculator.Decimal
