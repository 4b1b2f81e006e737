import DeskCalculator.Expression.Evaluation
import DeskCalculator.Proofs.Outcome
import DeskCalculator.Proofs.Rounding

/-!
# How far below the point a result reaches

Almost every operation ends with the same two steps: its value is rounded to the digits of
the context and held to the range. A power may be rounded once more after that. Either way
few digits stand after a leading digit that is in the range, so the exponent of a result is
never lower than a word of 64 bits can tell, whatever tree it was computed from.
-/

set_option autoImplicit false

namespace DeskCalculator

namespace Decimal

/-! ### Rounded and held to the range -/

structure Settled (c : Context) (x : Decimal) : Prop where
  inRange : x.InRange
  length_le : x.length ≤ c.digits

def Settles (c : Context) (o : Option Decimal) : Prop := ∀ x, o = some x → Settled c x

variable {c : Context}

theorem inRange_of_bounded {x y : Decimal} (h : x.bounded? = some y) :
    y = x ∧ x.InRange ∨ y = zero := by
  unfold bounded? at h
  split at h
  · next hr => exact .inl ⟨(Option.some.inj h).symm, hr⟩
  · split at h
    · cases h
    · exact .inr (Option.some.inj h).symm

theorem settled_zero : Settled c zero := ⟨Or.inl rfl, by
  have hlength : zero.length = 1 := Natural.digitCount_zero
  rw [hlength]
  exact c.positive⟩

theorem settled_one : Settled c one := by
  refine ⟨Or.inr ?_, ?_⟩
  · rw [adjusted_one]
    decide
  · rw [length_one]
    exact c.positive

theorem settles_none : Settles c none := fun _ h => nomatch h

theorem Settled.some {x : Decimal} (h : Settled c x) : Settles c (some x) := by
  rintro y ⟨⟩
  exact h

theorem settles_ite {p : Prop} [Decidable p] {o o' : Option Decimal} (h : Settles c o)
    (h' : Settles c o') : Settles c (if p then o else o') := by
  split
  · exact h
  · exact h'

theorem settles_bind {α : Type} {o : Option α} {f : α → Option Decimal}
    (h : ∀ a, Settles c (f a)) : Settles c (o.bind f) := by
  intro x hx
  obtain ⟨a, -, ha⟩ := Option.bind_eq_some_iff.mp hx
  exact h a x ha

theorem settles_round (x : Decimal) : Settles c (x.round c.digits).bounded? := by
  intro y hy
  rcases inRange_of_bounded hy with ⟨rfl, hr⟩ | rfl
  · exact ⟨hr, length_round_le x c.positive⟩
  · exact settled_zero

theorem settles_finish (m e : ℤ) : Settles c (finish m e c) := settles_round _

/-! ### The operations -/

variable (x y : Decimal)

theorem settles_add : Settles c (x.add y c) := by
  unfold add
  split
  · exact settles_round x
  · split
    · exact settles_round y
    · exact settles_finish _ _

theorem settles_sub : Settles c (x.sub y c) := settles_add x (-y)

theorem settles_mul : Settles c (x.mul y c) := settles_finish _ _

theorem settles_div : Settles c (x.div y c) := by
  unfold div
  split
  · exact settles_none
  · split
    · exact settled_zero.some
    · simp only
      split <;> exact settles_finish _ _

theorem settles_rem : Settles c (x.rem y c) := by
  unfold rem
  split
  · exact settles_none
  · split
    · exact settles_round x
    · simp only
      split <;> exact settles_finish _ _

theorem settles_exp : Settles c (x.exp c) := by
  unfold exp
  split
  · exact settled_one.some
  · split
    · split
      · exact settled_zero.some
      · exact settles_none
    · exact settles_ite (settles_finish _ _) settles_none

theorem settles_ln : Settles c (x.ln c) := by
  unfold ln
  split
  · exact settles_none
  · split
    · exact settled_zero.some
    · exact settles_finish _ _

theorem settles_log10 : Settles c (x.log10 c) := by
  unfold log10
  split
  · exact settles_none
  · split
    · exact settles_round _
    · exact settles_finish _ _

theorem settles_root (k : ℕ) : Settles c (x.root k c) := by
  unfold root
  split
  · exact settles_none
  · split
    · exact settled_zero.some
    · simp only
      split <;> exact settles_finish _ _

theorem settles_sin : Settles c (x.sin c) := by
  unfold sin
  split
  · exact settles_round x
  · exact settles_bind fun _ => settles_finish _ _

theorem settles_cos : Settles c (x.cos c) := by
  unfold cos
  split
  · exact settled_one.some
  · exact settles_bind fun _ => settles_finish _ _

theorem settles_tan : Settles c (x.tan c) := by
  unfold tan
  split
  · exact settles_round x
  · refine settles_bind fun angle => ?_
    simp only
    split
    · exact settles_none
    · exact settles_finish _ _

theorem settles_asin : Settles c (x.asin c) := by
  unfold asin
  split
  · exact settles_none
  · split
    · exact settles_round x
    · exact settles_finish _ _

theorem settles_acos : Settles c (x.acos c) := by
  unfold acos
  split
  · exact settles_none
  · exact settles_finish _ _

theorem settles_atan : Settles c (x.atan c) := by
  unfold atan
  split
  · exact settles_round x
  · simp only
    split
    · exact settles_bind fun _ => settles_finish _ _
    · exact settles_finish _ _

theorem settles_integerPower (n : ℤ) : Settles c (x.integerPower n c) := by
  unfold integerPower
  split
  · exact settles_none
  · split
    · exact settles_div _ _
    · exact settles_round _

theorem settles_ofRadians {o : Option Decimal} (ho : Settles c o) (unit : AngleUnit) :
    Settles c (o.bind (·.ofRadians unit c)) := by
  intro z hz
  obtain ⟨a, ha, hz⟩ := Option.bind_eq_some_iff.mp hz
  unfold ofRadians at hz
  split at hz
  · cases hz
    exact ho _ ha
  · exact settles_bind (fun _ => settles_div _ _) z hz

theorem settles_factorialLoop (n : Decimal) (steps : ℕ) {counter acc : Decimal}
    (h : Settled c acc) : Settles c (factorialLoop n c steps counter acc) := by
  induction steps generalizing counter acc with
  | zero => exact h.some
  | succ steps ih =>
    unfold factorialLoop
    split
    · exact h.some
    · intro z hz
      obtain ⟨acc', hacc, hz⟩ := Option.bind_eq_some_iff.mp hz
      obtain ⟨counter', -, hz⟩ := Option.bind_eq_some_iff.mp hz
      exact ih (settles_mul _ _ _ hacc) z hz

/-! ### Powers, which may be rounded again -/

def Kept (c : Context) (x : Decimal) : Prop := ∃ y : Decimal, y.InRange ∧ x = y.round c.digits

theorem Settled.kept {x : Decimal} (h : Settled c x) : Kept c x :=
  ⟨x, h.inRange, (round_of_length_le h.length_le).symm⟩

theorem kept_powerOfPositive {z : Decimal} (h : x.powerOfPositive y c = some z) : Kept c z := by
  unfold powerOfPositive at h
  have hpower : ∀ t : Decimal, ((t.exp (c.widen guardDigits)).bind fun power =>
      some (power.round c.digits)) = some z → Kept c z := by
    intro t ht
    obtain ⟨power, hp, ht⟩ := Option.bind_eq_some_iff.mp ht
    exact ⟨power, (settles_exp t power hp).inRange, (Option.some.inj ht).symm⟩
  obtain ⟨_, -, h⟩ := Option.bind_eq_some_iff.mp h
  obtain ⟨rough, -, h⟩ := Option.bind_eq_some_iff.mp h
  split at h
  · exact (settles_exp rough z h).kept
  · simp only at h
    split at h
    · obtain ⟨_, -, h⟩ := Option.bind_eq_some_iff.mp h
      obtain ⟨t, -, h⟩ := Option.bind_eq_some_iff.mp h
      exact hpower t h
    · exact hpower rough h

theorem kept_neg {x : Decimal} (h : Kept c x) : Kept c (-x) := by
  obtain ⟨y, hy, rfl⟩ := h
  exact ⟨-y, inRange_neg hy, (round_neg y c.positive).symm⟩

theorem kept_pow {z : Decimal} (h : x.pow y c = some z) : Kept c z := by
  unfold pow at h
  split at h
  · exact (settled_one.some z h).kept
  · split at h
    · split at h
      · cases h
      · exact (settled_zero.some z h).kept
    · split at h
      · exact (settles_integerPower x _ z h).kept
      · split at h
        · split at h
          · obtain ⟨w, hw, rfl⟩ := Option.map_eq_some_iff.mp h
            have hkept := kept_powerOfPositive x.abs y hw
            split
            · exact hkept
            · exact kept_neg hkept
          · cases h
        · exact kept_powerOfPositive x y h

theorem kept_rootOfOrder {n z : Decimal} (h : x.rootOfOrder n c = .ok z) : Kept c z := by
  have hpower : orOutOfRange ((one.div n c).bind (x.pow · c)) = .ok z → Kept c z := by
    intro hz
    obtain ⟨w, -, hw⟩ := Option.bind_eq_some_iff.mp (orOutOfRange_eq_ok.mp hz)
    exact kept_pow x w hw
  unfold rootOfOrder at h
  simp only at h
  split at h
  · cases h
  · split at h
    · cases h
    · split at h
      · split at h
        · obtain ⟨r, hr, hz⟩ := Option.bind_eq_some_iff.mp (orOutOfRange_eq_ok.mp h)
          split at hz
          · exact (settles_div one r z hz).kept
          · cases hz
            exact (settles_root x _ _ hr).kept
        · exact hpower h
      · exact hpower h

theorem kept_factorial {z : Decimal} (h : x.factorial c = .ok z) : Kept c z := by
  unfold factorial at h
  split at h
  · cases h
  · split at h
    · cases h
    · exact (settles_factorialLoop x _ settled_one z (orOutOfRange_eq_ok.mp h)).kept

end Decimal

open Decimal

variable {c : Context} {x y z : Decimal}

theorem BinaryOp.kept_apply {op : BinaryOp} (h : op.apply x y c = .ok z) : Kept c z := by
  cases op with
  | add => exact (settles_add x y z (orOutOfRange_eq_ok.mp h)).kept
  | sub => exact (settles_sub x y z (orOutOfRange_eq_ok.mp h)).kept
  | mul => exact (settles_mul x y z (orOutOfRange_eq_ok.mp h)).kept
  | div =>
    unfold apply at h
    simp only at h
    split at h
    · cases h
    · exact (settles_div x y z (orOutOfRange_eq_ok.mp h)).kept
  | mod =>
    unfold apply at h
    simp only at h
    split at h
    · cases h
    · exact (settles_rem x y z (orOutOfRange_eq_ok.mp h)).kept
  | pow => exact kept_pow x y (orOutOfRange_eq_ok.mp h)

theorem NamedFunction.kept_compute {f : NamedFunction} {others : List Decimal} {unit : AngleUnit}
    (hf : f ≠ .abs) (h : f.compute x others unit c = .ok z) : Kept c z := by
  have hsettles : ∀ {o : Option Decimal}, Settles c o → orOutOfRange o = .ok z → Kept c z :=
    fun ho hz => (ho z (orOutOfRange_eq_ok.mp hz)).kept
  have hite : ∀ {p : Prop} [Decidable p] {e : CalcError} {o : Option Decimal}, Settles c o →
      (if p then .error e else orOutOfRange o) = .ok z → Kept c z := by
    intro p _ e o ho hz
    split at hz
    · cases hz
    · exact hsettles ho hz
  cases f with
  | abs => exact absurd rfl hf
  | sin => exact hsettles (settles_bind fun a => settles_sin a) h
  | cos => exact hsettles (settles_bind fun a => settles_cos a) h
  | tan => exact hsettles (settles_bind fun a => settles_tan a) h
  | asin => exact hsettles (settles_ofRadians (settles_asin x) unit) h
  | acos => exact hsettles (settles_ofRadians (settles_acos x) unit) h
  | atan => exact hsettles (settles_ofRadians (settles_atan x) unit) h
  | ln => exact hite (settles_ln x) h
  | log => exact hite (settles_log10 x) h
  | exp => exact hsettles (settles_exp x) h
  | tenpow => exact kept_pow _ x (orOutOfRange_eq_ok.mp h)
  | inv => exact hite (settles_div one x) h
  | sqrt => exact hite (settles_root x 2) h
  | cbrt => exact hsettles (settles_root x 3) h
  | square => exact hsettles (settles_mul x x) h
  | cube => exact hsettles (settles_bind fun a => settles_mul a x) h
  | pow =>
    obtain ⟨w, -, hw⟩ := bind_eq_ok.mp h
    exact kept_pow x w (orOutOfRange_eq_ok.mp hw)
  | root =>
    obtain ⟨n, -, hn⟩ := bind_eq_ok.mp h
    exact kept_rootOfOrder x hn
  | fact => exact kept_factorial x h

/-! ### What every step of an evaluation keeps -/

theorem digits_widen (c : Context) (n : ℕ) : (c.widen n).digits = c.digits + n :=
  Nat.max_eq_left (Nat.le_trans c.positive (Nat.le_add_right _ _))

/-- A property of literals and constants, and of the outcome of every operation, that a sign and
a rounding leave alone. -/
structure Inherited (c : Context) (P : Decimal → Prop) : Prop where
  read {t : Text} {x : Decimal} : read? t = some x → P x
  constant (k : Constant) : P (k.value c)
  neg {x : Decimal} : P x → P (-x)
  round {x : Decimal} : P x → P (x.round c.digits)
  kept {x : Decimal} : Kept c x → P x
  widened {x : Decimal} : Kept (c.widen NamedFunction.guardDigits) x → P x

section
variable {P : Decimal → Prop}

theorem Inherited.abs (hP : Inherited c P) (h : P x) : P x.abs := by
  unfold Decimal.abs
  split
  · exact hP.neg h
  · exact h

theorem Inherited.apply (hP : Inherited c P) {f : NamedFunction} {others : List Decimal}
    {unit : AngleUnit} (hx : P x) (h : f.apply x others unit c = .ok z) : P z := by
  obtain ⟨w, hw, rfl⟩ := map_eq_ok.mp h
  refine hP.round ?_
  by_cases hf : f = .abs
  · subst hf
    cases hw
    exact hP.abs hx
  · exact hP.widened (NamedFunction.kept_compute hf hw)

mutual

theorem Inherited.eval (hP : Inherited c P) {unit : AngleUnit} :
    ∀ (a : Expr) {x : Decimal}, a.eval unit c = .ok x → P x
  | .literal text, x, h => by
    unfold Expr.eval at h
    split at h
    · next hread =>
      cases h
      exact hP.read hread
    · cases h
  | .constant k, x, h => by
    unfold Expr.eval at h
    cases h
    exact hP.constant k
  | .signed op a, x, h => by
    unfold Expr.eval at h
    obtain ⟨y, hy, rfl⟩ := map_eq_ok.mp h
    have hvalue := hP.eval a hy
    cases op with
    | plus => exact hvalue
    | minus => exact hP.neg hvalue
  | .binary op a b, x, h => by
    unfold Expr.eval at h
    obtain ⟨y, -, h⟩ := bind_eq_ok.mp h
    obtain ⟨z, -, h⟩ := bind_eq_ok.mp h
    exact hP.kept (BinaryOp.kept_apply h)
  | .call name args, x, h => by
    unfold Expr.eval at h
    split at h
    · cases h
    · obtain ⟨xs, hxs, h⟩ := bind_eq_ok.mp h
      split at h
      · cases h
      · next y others => exact hP.apply (hP.evalAll args hxs y List.mem_cons_self) h

theorem Inherited.evalAll (hP : Inherited c P) {unit : AngleUnit} :
    ∀ (args : List Expr) {xs : List Decimal}, Expr.evalAll unit c args = .ok xs → ∀ x ∈ xs, P x
  | [], xs, h => by
    unfold Expr.evalAll at h
    cases h
    exact fun x hx => nomatch hx
  | a :: rest, xs, h => by
    unfold Expr.evalAll at h
    obtain ⟨y, hy, h⟩ := bind_eq_ok.mp h
    obtain ⟨ys, hys, h⟩ := bind_eq_ok.mp h
    cases h
    intro x hx
    rcases List.mem_cons.mp hx with rfl | hx
    · exact hP.eval a hy
    · exact hP.evalAll rest hys x hx

end

end

/-! ### The last place -/

namespace Decimal

def Shallow (x : Decimal) : Prop := -9223372036854775808 ≤ x.exponent

theorem shallow_zero : Shallow zero := by
  rw [Shallow]
  decide

theorem shallow_of_mantissa_eq_zero (h : x.mantissa = 0) : x.Shallow := by
  rw [Shallow, exponent_eq_zero h]
  decide

theorem Shallow.neg (h : x.Shallow) : (-x).Shallow := h

theorem shallow_ofScaled {m e : ℤ} (h : -9223372036854775808 ≤ e) : (ofScaled m e).Shallow := by
  unfold ofScaled
  split
  · exact shallow_zero
  · exact h.trans (Int.le_add_of_nonneg_right (Int.natCast_nonneg _))

theorem Shallow.round (h : x.Shallow) (digits : ℕ) : (x.round digits).Shallow := by
  unfold Decimal.round
  simp only
  split
  · exact h
  · exact shallow_ofScaled (h.trans (Int.le_add_of_nonneg_right (Int.natCast_nonneg _)))

theorem shallow_of_bounded (h : x.bounded? = some y) (hx : x.Shallow) : y.Shallow := by
  rcases inRange_of_bounded h with ⟨rfl, -⟩ | rfl
  · exact hx
  · exact shallow_zero

theorem Kept.shallow (h : Kept c x) (hc : (c.digits : ℤ) ≤ maxAdjusted) : x.Shallow := by
  obtain ⟨y, hy, rfl⟩ := h
  by_cases hz : (y.round c.digits).mantissa = 0
  · exact shallow_of_mantissa_eq_zero hz
  have hyv : y.value ≠ 0 := by
    intro hv
    have hround := round_isRounding y c.positive
    rcases hround with ⟨-, hr⟩ | ⟨a, _, hle, -⟩
    · exact hz (value_eq_zero.mp hr)
    · exact IsRounding.ne_zero_of_le hle hv
  have hle := adjusted_le_adjusted_round c.positive hyv
  have hlow : -maxAdjusted ≤ y.adjusted := by
    rcases hy with hm | ⟨hlow, -⟩
    · exact absurd (value_eq_zero.mpr hm) hyv
    · exact hlow
  have hlength := length_round_le y c.positive
  have hadjusted := (y.round c.digits).adjusted_eq
  have hmax : maxAdjusted = 9000000000000000 := rfl
  rw [Shallow]
  omega

theorem shallow_of_read {t : Text} (h : read? t = some x) : x.Shallow := by
  unfold read? readThen at h
  simp only [Option.bind_eq_bind] at h
  obtain ⟨exponent, -, h⟩ := Option.bind_eq_some_iff.mp h
  obtain ⟨_, -, h⟩ := Option.bind_eq_some_iff.mp h
  obtain ⟨_, hfits, h⟩ := Option.bind_eq_some_iff.mp h
  refine shallow_of_bounded h (shallow_ofScaled ?_)
  exact ((Option.guard_eq_some' _).mp hfits).1

theorem shallow_constant (k : Constant) (hc : (c.digits : ℤ) ≤ maxAdjusted) :
    (k.value c).Shallow := by
  have hmax : maxAdjusted = 9000000000000000 := rfl
  have hguard : guardDigits = 10 := rfl
  cases k with
  | pi | e =>
    refine Shallow.round (shallow_ofScaled ?_) c.digits
    push_cast
    omega

theorem inherited_shallow (hc : (c.digits : ℤ) + NamedFunction.guardDigits ≤ maxAdjusted) :
    Inherited c Shallow where
  read := shallow_of_read
  constant k := shallow_constant k (by omega)
  neg := Shallow.neg
  round h := h.round c.digits
  kept h := h.shallow (by omega)
  widened h := h.shallow (by rw [digits_widen]; exact_mod_cast hc)

end Decimal

namespace Preferences

theorem digits_context_le_word (p : Preferences) : p.context.digits ≤ 2 ^ 32 := by
  have hlt := UInt32.toNat_lt (max p.precision minPrecision)
  exact max_le hlt.le (by decide)

theorem digits_context_le (p : Preferences) :
    (p.context.digits : ℤ) + NamedFunction.guardDigits ≤ maxAdjusted := by
  have hdigits := p.digits_context_le_word
  have hmax : maxAdjusted = 9000000000000000 := rfl
  have hguard : NamedFunction.guardDigits = 5 := rfl
  omega

theorem shallow_of_evaluateText {p : Preferences} {t : Text} (h : p.evaluateText t = .ok x) :
    x.Shallow := by
  unfold evaluateText at h
  split at h
  · cases h
    exact shallow_zero
  · obtain ⟨tree, -, h⟩ := bind_eq_ok.mp h
    obtain ⟨y, hy, rfl⟩ := map_eq_ok.mp h
    exact ((inherited_shallow p.digits_context_le).eval tree hy).round _

end Preferences

end DeskCalculator
