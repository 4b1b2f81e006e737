import DeskCalculator.Error
import DeskCalculator.Natural.Digits
import DeskCalculator.Natural.Root
import Mathlib.Tactic.Common

/-!
# Steps over primitives that are not defined everywhere

Division, integer roots, counting down and powers of ten are total functions here, with some value
or other where they mean nothing. In steps each of them is asked for, and a use outside its domain
ends the computation. What is shown of steps is that they realize a total function: they end as
it does, with its value or its failure, and are never ended by such a use. A power of ten whose
exponent does not fit 32 bits is the only reason to end in another way.
-/

set_option autoImplicit false

namespace DeskCalculator

open DeskCalculator.Natural

/-- The use of a primitive where it is not defined. -/
inductive Misuse where
  | zeroDivisor
  | negativeRadicand
  | negativeSize
  | endlessLoop
  deriving DecidableEq, Repr

inductive Halt where
  | undefined (misuse : Misuse)
  | longPower
  | failed (e : CalcError)
  deriving DecidableEq, Repr

abbrev Steps (α : Type) := Except Halt α

namespace Steps

variable {α β : Type}

def undefined (misuse : Misuse) : Steps α := .error (.undefined misuse)

def ofOutcome (r : Except CalcError α) : Steps α := r.mapError .failed

def within (o : Option α) : Steps α := ofOutcome (orOutOfRange o)

/-- Unless they ask for a power of ten that is too long, the steps end with the outcome. -/
def Realizes (m : Steps α) (r : Except CalcError α) : Prop :=
  m ≠ .error .longPower → m = ofOutcome r

/-! ### The primitives -/

def natQuotient (a b : Nat) : Steps { q : Nat // q = a / b } :=
  if b = 0 then undefined .zeroDivisor else .ok ⟨a / b, rfl⟩

def quotient (a b : Int) : Steps { q : Int // q = a.tdiv b } :=
  if b = 0 then undefined .zeroDivisor else .ok ⟨a.tdiv b, rfl⟩

def remainder (a b : Int) : Steps { r : Int // r = a.tmod b } :=
  if b = 0 then undefined .zeroDivisor else .ok ⟨a.tmod b, rfl⟩

def residue (a b : Int) : Steps { r : Int // r = a % b } :=
  if b = 0 then undefined .zeroDivisor else .ok ⟨a % b, rfl⟩

def integerRoot (k : Nat) (n : Int) : Steps { r : Nat // r = floorRoot k n.toNat } :=
  if k = 0 then undefined .zeroDivisor
  else if n < 0 then undefined .negativeRadicand
  else .ok ⟨floorRoot k n.toNat, rfl⟩

def toSize (n : Int) : Steps { k : Nat // (k : Int) = n } :=
  if h : n < 0 then undefined .negativeSize
  else .ok ⟨n.toNat, Int.toNat_of_nonneg (Int.not_lt.mp h)⟩

def takeAway (a b : Nat) : Steps { d : Nat // a = b + d } :=
  if h : a < b then undefined .negativeSize
  else .ok ⟨a - b, (Nat.add_sub_of_le (Nat.not_lt.mp h)).symm⟩

def tenTo (n : Nat) : Steps { d : Nat // d = tens n } :=
  if n < UInt32.size then .ok ⟨tens n, rfl⟩ else .error .longPower

def modularPower (base : Nat) (e : Int) (m : Nat) :
    Steps { r : Nat // r = powMod base e.toNat m } :=
  if m = 0 then undefined .zeroDivisor
  else if e < 0 then undefined .negativeSize
  else .ok ⟨powMod base e.toNat m, rfl⟩

/-! ### Steps that follow each other -/

variable {m : Steps α} {f : α → Steps β} {r : Except CalcError α} {r' : Except CalcError β} {a : α}

theorem realizes_ofOutcome (r : Except CalcError α) : Realizes (ofOutcome r) r := fun _ => rfl

theorem realizes_within (o : Option α) : Realizes (within o) (orOutOfRange o) :=
  realizes_ofOutcome _

theorem realizes_ok (a : α) : Realizes (.ok a) (.ok a) := fun _ => rfl

theorem Realizes.bind {g : α → Except CalcError β} (h : Realizes m r)
    (hf : ∀ a, m = .ok a → r = .ok a → Realizes (f a) (g a)) : Realizes (m >>= f) (r >>= g) := by
  intro hlong
  have hm : m = ofOutcome r := h fun hm => hlong (by rw [hm]; rfl)
  cases r with
  | error e => rw [hm]; rfl
  | ok a =>
    rw [hm]
    exact hf a hm rfl (by rwa [hm] at hlong)

theorem Realizes.pass (h : Realizes m (.ok a)) (hf : m = .ok a → Realizes (f a) r') :
    Realizes (m >>= f) r' :=
  h.bind (g := fun _ => r') fun b hm hb => by cases hb; exact hf hm

theorem Realizes.bind_within {o : Option α} {g : α → Option β} (h : Realizes m (orOutOfRange o))
    (hf : ∀ a, m = .ok a → o = some a → Realizes (f a) (orOutOfRange (g a))) :
    Realizes (m >>= f) (orOutOfRange (o.bind g)) := by
  cases o with
  | none => exact h.bind (g := fun a => orOutOfRange (g a)) fun a _ ha => by cases ha
  | some a => exact h.pass fun hm => hf a hm rfl

theorem realizes_assoc {γ : Type} {g : β → Steps γ} {r : Except CalcError γ}
    (h : Realizes (m >>= fun a => f a >>= g) r) : Realizes (m >>= f >>= g) r := by
  rwa [bind_assoc]

theorem realizes_ite {p : Prop} [Decidable p] {m m' : Steps α} {o o' : Option α}
    (h : p → Realizes m (orOutOfRange o)) (h' : ¬p → Realizes m' (orOutOfRange o')) :
    Realizes (if p then m else m') (orOutOfRange (if p then o else o')) := by
  split
  · next hp => exact h hp
  · next hp => exact h' hp

/-! ### Primitives within their domains -/

theorem realizes_natQuotient {a b : Nat} {f : { q : Nat // q = a / b } → Steps β} (hb : b ≠ 0)
    (h : Realizes (f ⟨a / b, rfl⟩) r') : Realizes (natQuotient a b >>= f) r' := by
  rw [natQuotient, if_neg hb]
  exact h

theorem realizes_quotient {a b : Int} {f : { q : Int // q = a.tdiv b } → Steps β} (hb : b ≠ 0)
    (h : Realizes (f ⟨a.tdiv b, rfl⟩) r') : Realizes (quotient a b >>= f) r' := by
  rw [quotient, if_neg hb]
  exact h

theorem realizes_remainder {a b : Int} {f : { r : Int // r = a.tmod b } → Steps β} (hb : b ≠ 0)
    (h : Realizes (f ⟨a.tmod b, rfl⟩) r') : Realizes (remainder a b >>= f) r' := by
  rw [remainder, if_neg hb]
  exact h

theorem realizes_residue {a b : Int} {f : { r : Int // r = a % b } → Steps β} (hb : b ≠ 0)
    (h : Realizes (f ⟨a % b, rfl⟩) r') : Realizes (residue a b >>= f) r' := by
  rw [residue, if_neg hb]
  exact h

theorem realizes_integerRoot {k : Nat} {n : Int}
    {f : { r : Nat // r = floorRoot k n.toNat } → Steps β} (hk : k ≠ 0) (hn : 0 ≤ n) (h : Realizes (f ⟨floorRoot k n.toNat, rfl⟩) r') :
    Realizes (integerRoot k n >>= f) r' := by
  rw [integerRoot, if_neg hk, if_neg (Int.not_lt.mpr hn)]
  exact h

theorem realizes_toSize {n : Int} {f : { k : Nat // (k : Int) = n } → Steps β} (hn : 0 ≤ n)
    (h : Realizes (f ⟨n.toNat, Int.toNat_of_nonneg hn⟩) r') : Realizes (toSize n >>= f) r' := by
  rw [toSize, dif_neg (Int.not_lt.mpr hn)]
  exact h

theorem realizes_takeAway {a b : Nat} {f : { d : Nat // a = b + d } → Steps β} (hle : b ≤ a)
    (h : Realizes (f ⟨a - b, (Nat.add_sub_of_le hle).symm⟩) r') :
    Realizes (takeAway a b >>= f) r' := by
  rw [takeAway, dif_neg (Nat.not_lt.mpr hle)]
  exact h

theorem realizes_modularPower {base m : Nat} {e : Int}
    {f : { r : Nat // r = powMod base e.toNat m } → Steps β} (hm : m ≠ 0) (he : 0 ≤ e)
    (h : Realizes (f ⟨powMod base e.toNat m, rfl⟩) r') :
    Realizes (modularPower base e m >>= f) r' := by
  rw [modularPower, if_neg hm, if_neg (Int.not_lt.mpr he)]
  exact h

theorem realizes_tenTo {n : Nat} {f : { d : Nat // d = tens n } → Steps β}
    (h : n < UInt32.size → Realizes (f ⟨tens n, rfl⟩) r') : Realizes (tenTo n >>= f) r' := by
  unfold tenTo
  split
  · next hn => exact h hn
  · exact fun hlong => absurd rfl hlong

theorem lt_of_tenTo_bind {n : Nat} {f : { d : Nat // d = tens n } → Steps α} {a : α}
    (h : (tenTo n >>= f) = .ok a) : n < UInt32.size := by
  by_contra hn
  rw [tenTo, if_neg hn] at h
  cases h

/-! ### Steps without a power of ten that is too long -/

theorem ok_bind (a : α) (f : α → Steps β) : (.ok a : Steps α) >>= f = f a := rfl

theorem bind_ne_longPower (hm : m ≠ .error .longPower)
    (hf : ∀ a, m = .ok a → f a ≠ .error .longPower) : m >>= f ≠ .error .longPower := by
  cases m with
  | error e => exact fun h => hm (by cases h; rfl)
  | ok a => exact hf a rfl

theorem ok_ne_longPower (a : α) : (.ok a : Steps α) ≠ .error .longPower := by
  intro h
  cases h

theorem undefined_ne_longPower (misuse : Misuse) :
    (undefined misuse : Steps α) ≠ .error .longPower := by
  intro h
  cases h

theorem within_ne_longPower (o : Option α) : within o ≠ .error .longPower := by
  cases o with
  | none => exact fun h => by cases h
  | some a => exact ok_ne_longPower a

theorem quotient_ne_longPower (a b : Int) : quotient a b ≠ .error .longPower := by
  unfold quotient
  split
  · exact undefined_ne_longPower _
  · exact ok_ne_longPower _

theorem remainder_ne_longPower (a b : Int) : remainder a b ≠ .error .longPower := by
  unfold remainder
  split
  · exact undefined_ne_longPower _
  · exact ok_ne_longPower _

theorem toSize_eq {n : Int} {k : Nat} (h : (k : Int) = n) : toSize n = .ok ⟨k, h⟩ := by
  subst h
  rfl

theorem takeAway_ne_longPower (a b : Nat) : takeAway a b ≠ .error .longPower := by
  unfold takeAway
  split
  · exact undefined_ne_longPower _
  · exact ok_ne_longPower _

theorem tenTo_ne_longPower {n : Nat} (h : n < UInt32.size) : tenTo n ≠ .error .longPower := by
  rw [tenTo, if_pos h]
  exact ok_ne_longPower _

end Steps

end DeskCalculator
