import DeskCalculator.Decimal.Exponential
import DeskCalculator.Proofs.ArithmeticSteps
import DeskCalculator.Proofs.SeriesSteps

/-!
# The steps of exponential, logarithms, powers and roots

They are steps over primitives, with a proof for each that its steps realize it. The digits of the
logarithm of ten are positive, so an argument can be reduced by them; a significand is not negative,
so its roots can be taken; and a shift that makes an exponent a multiple of the order of a root is
found within as many attempts as the order.
-/

set_option autoImplicit false

namespace DeskCalculator.Decimal

open DeskCalculator.Natural DeskCalculator.FixedPoint DeskCalculator.Steps

/-! ### Scaled integers -/

def integerDigitsSteps (x : Decimal) : Steps Nat := do
  let ⟨digits, _⟩ ← toSize (max (x.adjusted + 1) 0)
  return digits

def toWordSteps (x : Decimal) : Steps (Option Int) :=
  if 0 ≤ x.exponent ∧ x.exponent ≤ 18 then do
    let ⟨zeros, _⟩ ← toSize x.exponent
    let ⟨power, _⟩ ← tenTo zeros
    let n := x.mantissa * power
    return if FitsWord n then some n else none
  else return none

def toScaledSteps (x : Decimal) (w : Nat) : Steps Int :=
  let shift := x.exponent + w
  if 0 ≤ shift then do
    let ⟨zeros, _⟩ ← toSize shift
    let ⟨power, _⟩ ← tenTo zeros
    return x.mantissa * power
  else do
    let ⟨cut, _⟩ ← toSize (-shift)
    if x.length < cut then return 0
    else do
      let ⟨power, _⟩ ← tenTo cut
      let ⟨q, _⟩ ← quotient x.mantissa power
      return q

theorem realizes_integerDigits (x : Decimal) :
    Realizes (integerDigitsSteps x) (.ok x.integerDigits) := by
  refine realizes_toSize (Int.le_max_right _ _) ?_
  have hdigits : (max (x.adjusted + 1) 0).toNat = x.integerDigits := by
    rw [integerDigits]
    omega
  simp only [hdigits]
  exact realizes_ok _

theorem realizes_toWord (x : Decimal) : Realizes (toWordSteps x) (.ok x.toWord?) := by
  unfold toWordSteps toWord?
  split
  · next h => exact realizes_toSize h.1 (realizes_tenTo fun _ => realizes_ok _)
  · exact realizes_ok _

theorem realizes_toScaled (x : Decimal) (w : Nat) :
    Realizes (toScaledSteps x w) (.ok (x.toScaled w)) := by
  unfold toScaledSteps toScaled
  simp only
  split
  · next h =>
    refine realizes_toSize h (realizes_tenTo fun hlong => ?_)
    rw [powerOfTen_eq _ hlong]
    exact realizes_ok _
  · next h =>
    refine realizes_toSize (by omega) ?_
    split
    · exact realizes_ok _
    · exact realizes_tenTo fun _ => realizes_quotient (cast_tens_ne_zero _) (realizes_ok _)

/-! ### Exponential and logarithms -/

def expSteps (x : Decimal) (c : Context) : Steps Decimal :=
  if x.isZero then return one
  else if 17 ≤ x.adjusted then
    if x.isNegative then return zero else within none
  else do
    let whole ← integerDigitsSteps x
    let w := c.digits + guardDigits
    let scaled ← toScaledSteps x (w + whole)
    let ln10 ← ln10DigitsSteps c.known (w + whole)
    let ⟨towardZero, _⟩ ← quotient scaled ln10
    let k := if scaled - towardZero * ln10 < 0 then towardZero - 1 else towardZero
    let ⟨power, _⟩ ← tenTo whole
    let ⟨rest, _⟩ ← quotient (scaled - k * ln10) power
    if FitsWord k then do
      let m ← FixedPoint.expSteps rest w
      finishSteps m (k - w) c
    else within none

def lnSteps (x : Decimal) (c : Context) : Steps Decimal :=
  if x.mantissa ≤ 0 then within none
  else if x = one then return zero
  else do
    let w := x.logarithmDigits c
    let scaled ← toScaledSteps x.significand w
    let ofSignificand ← FixedPoint.lnSteps scaled w
    if x.adjusted = 0 then finishSteps ofSignificand (-w) c
    else do
      let ln10 ← ln10DigitsSteps c.known w
      finishSteps (ofSignificand + ln10 * x.adjusted) (-w) c

def log10Steps (x : Decimal) (c : Context) : Steps Decimal :=
  if x.mantissa ≤ 0 then within none
  else if x.significand = one then do
    let adjusted ← ofScaledSteps x.adjusted 0
    settleSteps adjusted c
  else do
    let w := x.logarithmDigits c
    let ⟨scale, _⟩ ← tenTo w
    let scaled ← toScaledSteps x.significand w
    let ofSignificand ← FixedPoint.lnSteps scaled w
    let ln10 ← ln10DigitsSteps c.known w
    let ⟨q, _⟩ ← quotient (ofSignificand * scale) ln10
    finishSteps (q + x.adjusted * scale) (-w) c

variable {c : Context}

theorem realizes_exp (hc : c.known.Sound) (x : Decimal) :
    Realizes (expSteps x c) (orOutOfRange (x.exp c)) := by
  unfold expSteps exp
  split
  · exact realizes_ok _
  split
  · split
    · exact realizes_ok _
    · exact realizes_within none
  refine (realizes_integerDigits x).pass fun _ => ?_
  refine (realizes_toScaled x _).pass fun _ => ?_
  refine (realizes_ln10Digits c.known _).pass fun hln10 => ?_
  have hln10 := ln10Digits_pos hc (lt_of_ln10Digits hc hln10)
  refine realizes_quotient hln10.ne' (realizes_tenTo fun _ => ?_)
  refine realizes_quotient (cast_tens_ne_zero _) ?_
  refine realizes_ite (fun _ => ?_) fun _ => realizes_within none
  exact (FixedPoint.realizes_exp _ _).pass fun _ => realizes_finish _ _ c

theorem toScaled_nonneg {x : Decimal} (h : 0 ≤ x.mantissa) (w : Nat) : 0 ≤ x.toScaled w := by
  unfold toScaled
  simp only
  split_ifs
  · exact Int.mul_nonneg h (Int.natCast_nonneg _)
  · exact le_rfl
  · exact Int.tdiv_nonneg h (Int.natCast_nonneg _)

theorem significand_nonneg (x : Decimal) : 0 ≤ x.significand.mantissa := by
  unfold significand ofScaled
  split
  · exact le_rfl
  · exact Int.tdiv_nonneg (Int.natCast_nonneg _) (Int.natCast_nonneg _)

theorem realizes_lnOfSignificand {β : Type} (x : Decimal) (w : Nat) {f : Int → Steps β}
    {r : Except CalcError β}
    (h : Realizes (f (FixedPoint.ln (x.significand.toScaled w).toNat w)) r) :
    Realizes (toScaledSteps x.significand w >>= fun scaled => FixedPoint.lnSteps scaled w >>= f)
      r := by
  refine (realizes_toScaled _ w).pass fun _ => ?_
  rw [← Int.toNat_of_nonneg (toScaled_nonneg x.significand_nonneg w)]
  exact (FixedPoint.realizes_ln _ w).pass fun _ => h

theorem realizes_ln (x : Decimal) : Realizes (lnSteps x c) (orOutOfRange (x.ln c)) := by
  unfold lnSteps ln
  split
  · exact realizes_within none
  split
  · exact realizes_ok _
  refine realizes_lnOfSignificand x _ ?_
  simp only
  split
  · rw [Int.add_zero]
    exact realizes_finish _ _ c
  · refine (realizes_ln10Digits c.known _).pass fun _ => ?_
    exact realizes_finish _ _ c

theorem realizes_log10 (hc : c.known.Sound) (x : Decimal) :
    Realizes (log10Steps x c) (orOutOfRange (x.log10 c)) := by
  unfold log10Steps log10
  split
  · exact realizes_within none
  split
  · exact (realizes_ofScaled _ _).pass fun _ => realizes_settle _ c
  refine realizes_tenTo fun hlong => ?_
  simp only [powerOfTen_eq _ hlong]
  refine realizes_lnOfSignificand x _ ?_
  refine (realizes_ln10Digits c.known _).pass fun hln10 => ?_
  refine realizes_quotient (ln10Digits_pos hc (lt_of_ln10Digits hc hln10)).ne' ?_
  exact realizes_finish _ _ c

/-! ### Powers -/

def multiplyIfOddSteps (n : Nat) (acc base : Decimal) (c : Context) : Steps Decimal :=
  if n % 2 = 1 then mulSteps acc base c else return acc

def squareAndMultiplySteps (c : Context) (n : Nat) (base acc : Decimal) : Steps Decimal :=
  if n = 0 then return acc
  else do
    let acc ← multiplyIfOddSteps n acc base c
    if n / 2 = 0 then return acc
    else do
      let square ← mulSteps base base c
      squareAndMultiplySteps c (n / 2) square acc

def naturalPowerSteps (x : Decimal) (k : Nat) (c : Context) : Steps Decimal :=
  if k ≤ maxExactPower then do
    let power ← ofScaledSteps (x.mantissa.pow k) (x.exponent * k)
    within power.bounded?
  else squareAndMultiplySteps (c.widen (guardDigits + digitCount k)) k x one

def integerPowerSteps (x : Decimal) (n : Int) (c : Context) : Steps Decimal := do
  let p ← naturalPowerSteps x n.natAbs c
  if n < 0 then divSteps one p c else settleSteps p c

def powerOfPositiveSteps (x y : Decimal) (c : Context) : Steps Decimal := do
  let guarded := guardDigits + 5
  let logarithm ← lnSteps x (c.widen guarded)
  let rough ← mulSteps y logarithm (c.widen guarded)
  if 17 ≤ rough.adjusted then expSteps rough c
  else do
    let whole ← integerDigitsSteps rough
    let t ← if 0 < whole then do
        let logarithm ← lnSteps x (c.widen (guarded + whole))
        mulSteps y logarithm (c.widen (guarded + whole))
      else pure rough
    let power ← expSteps t (c.widen guardDigits)
    roundSteps power c.digits

def powSteps (x y : Decimal) (c : Context) : Steps Decimal :=
  if y.isZero then return one
  else if x.isZero then
    if y.isNegative then within none else return zero
  else do
    match ← toWordSteps y with
    | some n => integerPowerSteps x n c
    | none =>
      if x.isNegative then
        if y.isInteger then do
          let p ← powerOfPositiveSteps x.abs y c
          return if y.isEven then p else -p
        else within none
      else powerOfPositiveSteps x y c

theorem squareAndMultiply_eq (n : Nat) (base acc : Decimal) :
    squareAndMultiply c n base acc =
      if n = 0 then some acc
      else (if n % 2 = 1 then acc.mul base c else some acc).bind fun acc =>
        if n / 2 = 0 then some acc
        else (base.mul base c).bind fun square => squareAndMultiply c (n / 2) square acc := by
  rw [squareAndMultiply]
  split
  · rfl
  · cases (if n % 2 = 1 then acc.mul base c else some acc) with
    | none => rfl
    | some acc =>
      simp only [Option.bind_some]
      cases base.mul base c <;> rfl

theorem realizes_squareAndMultiply (n : Nat) (base acc : Decimal) :
    Realizes (squareAndMultiplySteps c n base acc)
      (orOutOfRange (squareAndMultiply c n base acc)) := by
  induction n using Nat.strongRecOn generalizing base acc with
  | ind n ih =>
    rw [squareAndMultiplySteps, squareAndMultiply_eq]
    refine realizes_ite (fun _ => realizes_ok acc) fun hn => ?_
    refine Realizes.bind_within (o := if n % 2 = 1 then acc.mul base c else some acc) ?_
      fun acc _ _ => ?_
    · exact realizes_ite (fun _ => realizes_mul acc base c) fun _ => realizes_ok acc
    · refine realizes_ite (fun _ => realizes_ok acc) fun _ => ?_
      exact (realizes_mul base base c).bind_within
        fun square _ _ => ih (n / 2) (by omega) square acc

theorem realizes_naturalPower (x : Decimal) (k : Nat) :
    Realizes (naturalPowerSteps x k c) (orOutOfRange (x.naturalPower k c)) := by
  unfold naturalPowerSteps naturalPower
  split
  · exact (realizes_ofScaled _ _).pass fun _ => realizes_within _
  · exact realizes_squareAndMultiply _ _ _

theorem realizes_integerPower (x : Decimal) (n : Int) :
    Realizes (integerPowerSteps x n c) (orOutOfRange (x.integerPower n c)) := by
  have heq : x.integerPower n c = (x.naturalPower n.natAbs c).bind fun p =>
      if n < 0 then one.div p c else (p.round c.digits).bounded? := by
    rw [integerPower]
    cases x.naturalPower n.natAbs c <;> rfl
  rw [heq]
  refine (realizes_naturalPower x _).bind_within fun p _ _ => ?_
  split
  · exact realizes_div one p c
  · exact realizes_settle p c

theorem realizes_powerOfPositive (hc : c.known.Sound) (x y : Decimal) :
    Realizes (powerOfPositiveSteps x y c) (orOutOfRange (x.powerOfPositive y c)) := by
  unfold powerOfPositiveSteps powerOfPositive
  refine (realizes_ln x).bind_within fun logarithm _ _ => ?_
  refine (realizes_mul y logarithm _).bind_within fun rough _ _ => ?_
  simp only
  split
  · exact realizes_exp hc rough
  refine (realizes_integerDigits rough).pass fun _ => ?_
  have hrest : ∀ t : Decimal,
      Realizes (expSteps t (c.widen guardDigits) >>= fun power => roundSteps power c.digits)
        (orOutOfRange ((t.exp (c.widen guardDigits)).bind
          fun power => some (power.round c.digits))) :=
    fun t => (realizes_exp (c := c.widen guardDigits) hc t).bind_within
      fun power _ _ => realizes_round power c.digits
  refine realizes_ite (fun _ => ?_) fun _ => hrest rough
  refine (realizes_ln x).bind_within fun logarithm _ _ => ?_
  exact (realizes_mul y logarithm _).bind_within fun t _ _ => hrest t

theorem realizes_pow (hc : c.known.Sound) (x y : Decimal) :
    Realizes (powSteps x y c) (orOutOfRange (x.pow y c)) := by
  unfold powSteps pow
  split
  · exact realizes_ok _
  split
  · split
    · exact realizes_within none
    · exact realizes_ok _
  refine (realizes_toWord y).pass fun _ => ?_
  cases y.toWord? with
  | some n => exact realizes_integerPower x n
  | none =>
    simp only
    split
    · split
      · rw [Option.map_eq_bind]
        exact (realizes_powerOfPositive hc x.abs y).bind_within fun p _ _ => realizes_ok _
      · exact realizes_within none
    · exact realizes_powerOfPositive hc x y

/-! ### Roots -/

def alignSteps (exponent : Int) (k : Nat) : Nat → Nat → Steps Nat
  | 0, _ => undefined .endlessLoop
  | attempts + 1, shift => do
    let ⟨rest, _⟩ ← residue (exponent - shift) k
    if rest = 0 then return shift else alignSteps exponent k attempts (shift + 1)

def rootSteps (x : Decimal) (k : Nat) (c : Context) : Steps Decimal :=
  if k = 0 ∨ maxRootOrder < k ∨ (x.isNegative ∧ k % 2 = 0) then within none
  else if x.isZero then return zero
  else do
    let shift ← alignSteps x.exponent k k (k * (c.digits + 3) - x.length)
    let ⟨power, _⟩ ← tenTo shift
    let radicand := x.mantissa.natAbs * power
    let ⟨r, _⟩ ← integerRoot k radicand
    let ⟨e, _⟩ ← quotient (x.exponent - shift) k
    let sign : Int := if x.isNegative then -1 else 1
    if Nat.pow r k = radicand then finishSteps (sign * r) e c
    else finishSteps (sign * witness r) (e - 1) c

theorem realizes_align {exponent : Int} {k : Nat} (hk : k ≠ 0) {attempts start : Nat}
    (h : ((exponent - start) % k).toNat < attempts) :
    Realizes (alignSteps exponent k attempts start) (.ok (alignedShift exponent k start)) := by
  induction attempts generalizing start with
  | zero => exact absurd h (Nat.not_lt_zero _)
  | succ attempts ih =>
    refine realizes_residue (Int.natCast_ne_zero.mpr hk) ?_
    simp only
    split
    · next hrest =>
      rw [alignedShift, hrest]
      exact realizes_ok start
    · next hrest =>
      have hpos : (0 : Int) < k := by omega
      have hrange := Int.emod_nonneg (exponent - start) hpos.ne'
      have hlt := Int.emod_lt_of_pos (exponent - start) hpos
      have hnext : (exponent - (start + 1 : Nat)) % k = (exponent - start) % k - 1 := by
        have hdivision := Int.emod_add_mul_ediv (exponent - start) k
        have hsplit : exponent - (start + 1 : Nat) =
            (exponent - start) % k - 1 + k * ((exponent - start) / k) := by
          push_cast
          linarith
        rw [hsplit, Int.add_mul_emod_self_left, Int.emod_eq_of_lt (by omega) (by omega)]
      have hshift : alignedShift exponent k start = alignedShift exponent k (start + 1) := by
        rw [alignedShift, alignedShift, hnext]
        omega
      rw [hshift]
      exact ih (by rw [hnext]; omega)

theorem dvd_sub_alignedShift (exponent : Int) {k : Nat} (hk : k ≠ 0) (start : Nat) :
    (k : Int) ∣ exponent - alignedShift exponent k start := by
  have hdivision := Int.emod_add_mul_ediv (exponent - start) k
  have hnonneg := Int.emod_nonneg (exponent - start) (Int.natCast_ne_zero.mpr hk)
  refine ⟨(exponent - start) / k, ?_⟩
  rw [alignedShift, Int.natCast_add, Int.toNat_of_nonneg hnonneg]
  linarith

theorem realizes_root (x : Decimal) (k : Nat) :
    Realizes (rootSteps x k c) (orOutOfRange (x.root k c)) := by
  unfold rootSteps root
  refine realizes_ite (fun _ => realizes_within none) fun horder => ?_
  refine realizes_ite (fun _ => realizes_ok zero) fun _ => ?_
  have hk : k ≠ 0 := fun hk => horder (.inl hk)
  have hattempts := Int.emod_lt_of_pos
    (x.exponent - (k * (c.digits + 3) - x.length : Nat)) (show (0 : Int) < k by omega)
  refine (realizes_align hk (by omega)).pass fun _ => realizes_tenTo fun hlong => ?_
  simp only [powerOfTen_eq _ hlong]
  refine realizes_integerRoot hk (Int.natCast_nonneg _) ?_
  refine realizes_quotient (Int.natCast_ne_zero.mpr hk) ?_
  rw [Int.tdiv_eq_ediv_of_dvd (dvd_sub_alignedShift _ hk _), Int.toNat_natCast]
  exact realizes_ite (fun _ => realizes_finish _ _ c) fun _ => realizes_finish _ _ c

end DeskCalculator.Decimal
