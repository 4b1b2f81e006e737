import DeskCalculator.Natural.Digits

/-!
# Decimal numbers

A decimal is an integer times a power of ten, in the one form that has no
trailing zero: zero is `0 * 10 ^ 0`, and any other mantissa is not a multiple of
ten. The form is part of the type, so equal values have equal representations
and no operation has to check it.
-/

set_option autoImplicit false

namespace DeskCalculator

open DeskCalculator.Natural

/-- The value `mantissa * 10 ^ exponent`. -/
@[ext] structure Decimal where
  mantissa : Int
  exponent : Int
  /-- Zero has exponent zero, and no other mantissa ends in a zero. -/
  canonical : mantissa = 0 ∧ exponent = 0 ∨ ¬ (10 : Int) ∣ mantissa
  deriving DecidableEq

namespace Decimal

def zero : Decimal := ⟨0, 0, Or.inl ⟨rfl, rfl⟩⟩

def one : Decimal := ⟨1, 0, Or.inr (by decide)⟩

instance : Inhabited Decimal := ⟨zero⟩

theorem not_ten_dvd_tdiv_trailingZeros (m : Int) (h : m ≠ 0) :
    ¬ (10 : Int) ∣ m.tdiv (tens (trailingZeros m.natAbs)) := by
  intro hd
  apply not_ten_dvd_div_trailingZeros m.natAbs (by omega)
  have hn := Int.natAbs_dvd_natAbs.mpr hd
  rw [Int.natAbs_tdiv] at hn
  exact hn

/-- The decimal with value `mantissa * 10 ^ exponent`: trailing zeros move into the exponent. -/
def ofScaled (mantissa exponent : Int) : Decimal :=
  if h : mantissa = 0 then zero
  else
    let zeros := trailingZeros mantissa.natAbs
    ⟨mantissa.tdiv (tens zeros), exponent + zeros,
      Or.inr (not_ten_dvd_tdiv_trailingZeros mantissa h)⟩

def ofInt (n : Int) : Decimal := ofScaled n 0

/-! ### Sign, parity and size -/

def isZero (x : Decimal) : Bool := x.mantissa = 0

def isNegative (x : Decimal) : Bool := x.mantissa < 0

def isInteger (x : Decimal) : Bool := 0 ≤ x.exponent

def isEven (x : Decimal) : Bool :=
  0 < x.exponent || (x.exponent = 0 && x.mantissa % 2 = 0)

instance : Neg Decimal where
  neg x := ⟨-x.mantissa, x.exponent, by
    rcases x.canonical with ⟨hm, he⟩ | h
    · exact Or.inl ⟨by rw [hm]; rfl, he⟩
    · exact Or.inr (fun hd => h (Int.dvd_neg.mp hd))⟩

def abs (x : Decimal) : Decimal := if x.isNegative then -x else x

def length (x : Decimal) : Nat := digitCount x.mantissa.natAbs

/-- The exponent of the leading digit: the value is `d.ddd * 10 ^ adjusted`. -/
def adjusted (x : Decimal) : Int := x.exponent + x.length - 1

def integerDigits (x : Decimal) : Nat := (x.adjusted + 1).toNat

def FitsWord (n : Int) : Prop := -9223372036854775808 ≤ n ∧ n < 9223372036854775808

instance (n : Int) : Decidable (FitsWord n) := inferInstanceAs (Decidable (_ ∧ _))

def toWord? (x : Decimal) : Option Int :=
  if 0 ≤ x.exponent ∧ x.exponent ≤ 18 then
    let n := x.mantissa * tens x.exponent.toNat
    if FitsWord n then some n else none
  else none

/-! ### Order -/

def mantissaAt (x : Decimal) (e : Int) : Nat := x.mantissa.natAbs * tens (x.exponent - e).toNat

def cmpMagnitude (x y : Decimal) : Ordering :=
  if x.adjusted = y.adjusted then
    let e := min x.exponent y.exponent
    compare (x.mantissaAt e) (y.mantissaAt e)
  else compare x.adjusted y.adjusted

def cmp (x y : Decimal) : Ordering :=
  match compare x.mantissa.sign y.mantissa.sign with
  | .eq =>
    if x.mantissa = 0 then .eq
    else if x.isNegative then cmpMagnitude y x
    else cmpMagnitude x y
  | order => order

/-! ### Scaled integers -/

def toScaled (x : Decimal) (w : Nat) : Int :=
  let shift := x.exponent + w
  if 0 ≤ shift then x.mantissa * powerOfTen shift.toNat
  else if x.length < (-shift).toNat then 0
  else x.mantissa.tdiv (tens (-shift).toNat)

def significand (x : Decimal) : Decimal :=
  ofScaled x.mantissa.natAbs (1 - x.length)

end Decimal

end DeskCalculator
