import DeskCalculator.Proofs.SeriesSteps

/-!
# Loops over series

The functions on scaled integers add up a series in a loop that has no bound: it is left where a
term is zero. Here the loops stand as they are written, with terms that have a sign and with turns
that may go on for ever, so that an end has to be proved. The magnitudes of the terms are those of
the lists that the functions are computed with, and a loop is left after as many turns as its list
is long, with the sum of the list under the signs.

A factorial series may grow at first, and ends because its divisors pass its ratio. The logarithm
and the arctangent reduce their argument below one, so their powers fall. A series in inverse
powers has divisors without bound.
-/

set_option autoImplicit false

namespace DeskCalculator.FixedPoint

open DeskCalculator.Natural

/-! ### Loops -/

inductive Turn (σ ρ : Type)
  | next (state : σ)
  | leave (result : ρ)

inductive EndsAfter {σ ρ : Type} (turn : σ → Turn σ ρ) : ℕ → σ → ρ → Prop
  | leave {s : σ} {r : ρ} (h : turn s = .leave r) : EndsAfter turn 0 s r
  | next {n : ℕ} {s s' : σ} {r : ρ} (h : turn s = .next s') (rest : EndsAfter turn n s' r) :
      EndsAfter turn (n + 1) s r

/-- What a loop over a series counts and carries from turn to turn, and what it has added up. -/
structure Progress where
  counter : ℕ
  carried : ℤ
  sum : ℤ

structure Loop where
  turn : Progress → Turn Progress ℤ
  start : Progress

def Loop.EndsWith (loop : Loop) (sum : ℤ) : Prop := ∃ n, EndsAfter loop.turn n loop.start sum

def Progress.add (p : Progress) (term carried : ℤ) : Turn Progress ℤ :=
  if term = 0 then .leave p.sum else .next ⟨p.counter + 1, carried, p.sum + term⟩

def factorialTurn (sign : ℤˣ) (ratio scale : ℤ) (divisor : ℕ → ℕ) (p : Progress) :
    Turn Progress ℤ :=
  let term := (sign * (p.carried * ratio).tdiv scale).tdiv (divisor p.counter)
  p.add term term

def oddTurn (sign : ℤˣ) (ratio scale : ℤ) (p : Progress) : Turn Progress ℤ :=
  let power := sign * (p.carried * ratio).tdiv scale
  p.add (power.tdiv (2 * p.counter + 1 : ℕ)) power

def inverseTurn (alternates : Bool) (q scale : ℤ) (p : Progress) : Turn Progress ℤ :=
  let term := scale.tdiv (p.carried * (2 * p.counter + 1 : ℕ))
  p.add (if alternates ∧ p.counter % 2 = 1 then -term else term) (p.carried * (q * q))

/-! ### Sums under signs -/

def signedSum (δ : ℤˣ) : List ℕ → ℤ
  | [] => 0
  | a :: rest => a + δ * signedSum δ rest

theorem signedSum_one (terms : List ℕ) : signedSum 1 terms = total terms := by
  induction terms with
  | nil => rfl
  | cons a rest ih => simp [signedSum, total, ih]

theorem signedSum_neg_one (terms : List ℕ) : signedSum (-1) terms = alternating terms := by
  induction terms with
  | nil => rfl
  | cons a rest ih => simp [signedSum, alternating, ih, sub_eq_add_neg]

def signOf (x : ℤ) : ℤˣ := if x < 0 then -1 else 1

theorem signOf_mul_natAbs (x : ℤ) : signOf x * (x.natAbs : ℤ) = x := by
  unfold signOf
  split
  · rw [Units.val_neg, Units.val_one]
    omega
  · rw [Units.val_one]
    omega

theorem withSign_eq (x magnitude : ℤ) : withSign x magnitude = signOf x * magnitude := by
  unfold withSign signOf
  split <;> simp

theorem unit_mul_tdiv (ε : ℤˣ) (a b : ℕ) : ((ε : ℤ) * a).tdiv b = ε * (a / b : ℕ) := by
  rcases Int.units_eq_one_or ε with rfl | rfl <;> simp [Int.neg_tdiv]

theorem unit_mul_eq_zero {ε : ℤˣ} {a : ℕ} : (ε : ℤ) * a = 0 ↔ a = 0 := by simp

variable {ε δ ρ sign : ℤˣ} {ratio scale q : ℕ} {divisor : ℕ → ℕ}

theorem unit_mul_mul_tdiv (hδ : δ = sign * ρ) (ε : ℤˣ) (t ratio scale : ℕ) :
    (sign : ℤ) * ((ε * t : ℤ) * (ρ * ratio)).tdiv scale =
      (ε * δ : ℤˣ) * (t * ratio / scale : ℕ) := by
  have hproduct : (ε * t : ℤ) * (ρ * ratio) = (ε * ρ : ℤˣ) * (t * ratio : ℕ) := by
    push_cast
    ring
  rw [hproduct, unit_mul_tdiv, hδ]
  push_cast
  ring

/-! ### The loops end -/

section

variable {turn : Progress → Turn Progress ℤ} {p : Progress} {a : ℕ} {rest : List ℕ} {carried : ℤ}

theorem EndsAfter.add_zero (h : turn p = p.add (ε * a) carried) (ha : a = 0) (δ : ℤˣ) :
    EndsAfter turn ([] : List ℕ).length p (p.sum + ε * signedSum δ []) := by
  apply EndsAfter.leave
  rw [h, Progress.add, if_pos (unit_mul_eq_zero.mpr ha), signedSum, mul_zero, Int.add_zero]

theorem EndsAfter.add_term (h : turn p = p.add (ε * a) carried) (ha : a ≠ 0)
    (hrest : EndsAfter turn rest.length ⟨p.counter + 1, carried, p.sum + ε * a⟩
      (p.sum + ε * a + (ε * δ : ℤˣ) * signedSum δ rest)) :
    EndsAfter turn (a :: rest).length p (p.sum + ε * signedSum δ (a :: rest)) := by
  have hsum : p.sum + ε * a + (ε * δ : ℤˣ) * signedSum δ rest =
      p.sum + ε * signedSum δ (a :: rest) := by
    rw [signedSum]
    push_cast
    ring
  rw [Progress.add, if_neg (unit_mul_eq_zero.not.mpr ha)] at h
  exact .next h (hsum ▸ hrest)

end

theorem factorialTurn_ends (hδ : δ = sign * ρ) (ratio scale : ℕ) (grows : ∀ n, n ≤ divisor n)
    (n t : ℕ) (ε : ℤˣ) (sum : ℤ) :
    EndsAfter (factorialTurn sign (ρ * ratio) scale divisor)
      (factorialTerms ratio scale divisor grows n t).length ⟨n, ε * t, sum⟩
      (sum + (ε * δ : ℤˣ) * signedSum δ (factorialTerms ratio scale divisor grows n t)) := by
  have hturn : ∀ (n t : ℕ) (ε : ℤˣ) (sum : ℤ),
      factorialTurn sign (ρ * ratio) scale divisor ⟨n, ε * t, sum⟩ =
        Progress.add ⟨n, ε * t, sum⟩ ((ε * δ : ℤˣ) * (t * ratio / scale / divisor n : ℕ))
          ((ε * δ : ℤˣ) * (t * ratio / scale / divisor n : ℕ)) := fun n t ε sum => by
    rw [factorialTurn, unit_mul_mul_tdiv hδ, unit_mul_tdiv]
  induction n, t using factorialTerms.induct ratio scale divisor grows generalizing ε sum with
  | case1 n t next last =>
    rw [factorialTerms, dif_pos last]
    exact .add_zero (hturn n t ε sum) last δ
  | case2 n t next last ih =>
    rw [factorialTerms, dif_neg last]
    exact .add_term (hturn n t ε sum) last (ih (ε * δ) _)

theorem oddTurn_ends (small : ratio ≤ scale) (k power : ℕ) (ε : ℤˣ) (sum : ℤ) :
    EndsAfter (oddTurn δ ratio scale) (oddTerms ratio scale small k power).length
      ⟨k, ε * power, sum⟩
      (sum + (ε * δ : ℤˣ) * signedSum δ (oddTerms ratio scale small k power)) := by
  have hturn : ∀ (k power : ℕ) (ε : ℤˣ) (sum : ℤ),
      oddTurn δ ratio scale ⟨k, ε * power, sum⟩ =
        Progress.add ⟨k, ε * power, sum⟩ ((ε * δ : ℤˣ) * (power * ratio / scale / (2 * k + 1) : ℕ))
          ((ε * δ : ℤˣ) * (power * ratio / scale : ℕ)) := fun k power ε sum => by
    have hpower := unit_mul_mul_tdiv (mul_one δ).symm ε power ratio scale
    rw [Units.val_one, one_mul] at hpower
    rw [oddTurn, hpower, unit_mul_tdiv]
  induction k, power using oddTerms.induct ratio scale small generalizing ε sum with
  | case1 k power next term last =>
    rw [oddTerms, dif_pos last]
    exact .add_zero (hturn k power ε sum) last δ
  | case2 k power next term last ih =>
    rw [oddTerms, dif_neg last]
    exact .add_term (hturn k power ε sum) last (ih (ε * δ) _)

def alternation (alternates : Bool) : ℤˣ := if alternates then -1 else 1

theorem alternation_pow_mul (alternates : Bool) (k : ℕ) (term : ℤ) :
    ((alternation alternates ^ k : ℤˣ) : ℤ) * term =
      if alternates ∧ k % 2 = 1 then -term else term := by
  cases alternates with
  | false => simp [alternation]
  | true =>
    rcases Nat.even_or_odd k with hk | hk
    · simp [alternation, hk.neg_one_pow, Nat.even_iff.mp hk]
    · simp [alternation, hk.neg_one_pow, Nat.odd_iff.mp hk]

theorem inverseTurn_ends (positive : 0 < q) (alternates : Bool) (ε : ℤˣ) (scale power k : ℕ)
    (sum : ℤ) :
    EndsAfter (inverseTurn alternates q (ε * scale))
      (inverseTerms q positive scale power k).length ⟨k, power, sum⟩
      (sum + (ε * alternation alternates ^ k : ℤˣ) *
        signedSum (alternation alternates) (inverseTerms q positive scale power k)) := by
  have hturn : ∀ (power k : ℕ) (sum : ℤ), inverseTurn alternates q (ε * scale) ⟨k, power, sum⟩ =
      Progress.add ⟨k, power, sum⟩
        ((ε * alternation alternates ^ k : ℤˣ) * (scale / (power * (2 * k + 1)) : ℕ))
        (power * (q * q) : ℕ) := fun power k sum => by
    rw [inverseTurn, ← alternation_pow_mul, ← Nat.cast_mul, unit_mul_tdiv, mul_comm ε,
      Units.val_mul, mul_assoc]
    push_cast
    rfl
  induction power, k using inverseTerms.induct q positive scale generalizing sum with
  | case1 power k term last =>
    rw [inverseTerms, dif_pos last]
    exact .add_zero (hturn power k sum) last _
  | case2 power k term last ih =>
    rw [inverseTerms, dif_neg last]
    refine .add_term (hturn power k sum) last ?_
    rw [mul_assoc, ← pow_succ]
    exact ih _

/-! ### The loops of the functions -/

def exponentialLoop (x : ℤ) (w : ℕ) : Loop where
  turn := factorialTurn 1 (x.tdiv (Nat.pow 2 halvings : ℕ)) (powerOfTen w) id
  start := ⟨1, powerOfTen w, powerOfTen w⟩

def sineLoop (x : ℤ) (w : ℕ) : Loop where
  turn := factorialTurn (-1) ((x * x).tdiv (powerOfTen w)) (powerOfTen w) sineDivisor
  start := ⟨1, x, x⟩

def cosineLoop (x : ℤ) (w : ℕ) : Loop where
  turn := factorialTurn (-1) ((x * x).tdiv (powerOfTen w)) (powerOfTen w) cosineDivisor
  start := ⟨1, powerOfTen w, powerOfTen w⟩

def oddLoop (sign : ℤˣ) (z : ℤ) (scale : ℕ) : Loop where
  turn := oddTurn sign ((z * z).tdiv scale) scale
  start := ⟨1, z, z⟩

def logarithmLoop (a w : ℕ) : Loop :=
  let root : ℤ := rootTimes (powerOfTen w) rootings a
  oddLoop 1 (((root - powerOfTen w) * powerOfTen w).tdiv (root + powerOfTen w)) (powerOfTen w)

def halfAngle (scale : ℕ) (x : ℤ) : ℤ :=
  (x * scale).tdiv (scale + floorSqrt (scale * scale + x * x).toNat : ℕ)

def arctangentLoop (x : ℤ) (w : ℕ) : Loop :=
  let scale := powerOfTen w
  oddLoop (-1) (halfAngle scale (halfAngle scale (halfAngle scale x))) scale

def inverseLoop (alternates : Bool) (q : ℕ) (scale : ℤ) : Loop where
  turn := inverseTurn alternates q scale
  start := ⟨0, q, 0⟩

theorem unit_mul_self (ε : ℤˣ) (t : ℕ) : (ε * t : ℤ) * (ε * t) = (t * t : ℕ) := by
  rcases Int.units_eq_one_or ε with rfl | rfl <;> simp

theorem unit_mul_self_tdiv (ε : ℤˣ) (t scale : ℕ) :
    ((ε * t : ℤ) * (ε * t)).tdiv scale = (t * t / scale : ℕ) := by
  rw [unit_mul_self, Int.ofNat_tdiv]

theorem exponentialLoop_ends (x : ℤ) (w : ℕ) :
    ∃ sum, (exponentialLoop x w).EndsWith sum ∧
      exp x w = squareTimes (powerOfTen w) halvings sum := by
  have hsum : ∀ (y : ℤ) (terms : List ℕ),
      (if y < 0 then alternating terms else total terms) = signedSum (signOf y) terms := by
    intro y terms
    rw [← signedSum_one, ← signedSum_neg_one, signOf]
    split <;> rfl
  simp only [exp, hsum]
  refine ⟨_, ?_, rfl⟩
  rw [exponentialLoop]
  generalize x.tdiv (Nat.pow 2 halvings : ℕ) = y
  have hsign : signOf y = 1 * signOf y := (one_mul _).symm
  have hloop := factorialTurn_ends hsign y.natAbs (powerOfTen w) (fun n => le_refl (id n)) 1
    (powerOfTen w) 1 (powerOfTen w)
  simp only [signOf_mul_natAbs, Units.val_one, one_mul] at hloop
  exact ⟨_, hloop⟩

theorem circularTurn_ends (scale : ℕ) (grows : ∀ n, n ≤ divisor n) (x : ℤ) (ε : ℤˣ) (t : ℕ) :
    Loop.EndsWith ⟨factorialTurn (-1) ((x * x).tdiv scale) scale divisor, ⟨1, ε * t, ε * t⟩⟩
      (ε * alternating (t :: factorialTerms (scaledSquare x scale) scale divisor grows 1 t)) := by
  have hsquare : (x * x).tdiv scale = ((1 : ℤˣ) : ℤ) * scaledSquare x scale := by
    rw [← signOf_mul_natAbs x, unit_mul_self_tdiv, signOf_mul_natAbs, scaledSquare, Units.val_one,
      one_mul]
  have hsign : (-1 : ℤˣ) = -1 * 1 := (mul_one _).symm
  have hloop := factorialTurn_ends hsign (scaledSquare x scale) scale grows 1 t ε (ε * t)
  have hsum : (ε * t : ℤ) + (ε * -1 : ℤˣ) * signedSum (-1)
      (factorialTerms (scaledSquare x scale) scale divisor grows 1 t) =
        ε * alternating (t :: factorialTerms (scaledSquare x scale) scale divisor grows 1 t) := by
    rw [alternating, signedSum_neg_one]
    push_cast
    ring
  rw [hsum] at hloop
  rw [hsquare]
  exact ⟨_, hloop⟩

theorem sineLoop_ends (x : ℤ) (w : ℕ) : (sineLoop x w).EndsWith (sin x w) := by
  have hloop := circularTurn_ends (powerOfTen w) le_sineDivisor x (signOf x) x.natAbs
  rw [signOf_mul_natAbs, ← withSign_eq] at hloop
  exact hloop

theorem cosineLoop_ends (x : ℤ) (w : ℕ) : (cosineLoop x w).EndsWith (cos x w) := by
  have hloop := circularTurn_ends (powerOfTen w) le_cosineDivisor x 1 (powerOfTen w)
  simp only [Units.val_one, one_mul] at hloop
  exact hloop

theorem oddLoop_ends (ε sign : ℤˣ) {z scale : ℕ} (small : z ≤ scale) :
    (oddLoop sign (ε * z) scale).EndsWith (ε * signedSum sign (oddSeries z scale small)) := by
  have hloop := oddTurn_ends (δ := sign) (square_le_of_le z scale small) 1 z ε (ε * z)
  rw [oddLoop, unit_mul_self_tdiv, oddSeries, signedSum, mul_add, ← mul_assoc, ← Units.val_mul]
  exact ⟨_, hloop⟩

theorem logarithmLoop_ends (a w : ℕ) :
    ∃ sum, (logarithmLoop a w).EndsWith sum ∧ ln a w = sum * (Nat.pow 2 (rootings + 1) : ℕ) := by
  rw [ln_eq, logarithmLoop]
  generalize rootTimes (powerOfTen w) rootings a = root
  have hz : (((root : ℤ) - powerOfTen w) * powerOfTen w).tdiv (root + powerOfTen w) =
      signOf (root - powerOfTen w) * artanhArgument root (powerOfTen w) := by
    rw [artanhArgument, ← unit_mul_tdiv]
    push_cast
    rw [← mul_assoc, ← Int.natCast_natAbs, signOf_mul_natAbs]
  rw [withSign_eq, ← signedSum_one]
  simp only [hz]
  exact ⟨_, oddLoop_ends _ _ (artanhArgument_le root (powerOfTen w)), rfl⟩

theorem halfAngle_eq (ε : ℤˣ) (t scale : ℕ) :
    halfAngle scale (ε * t) = ε * halfAngleTangent scale t := by
  rw [halfAngle, unit_mul_self, halfAngleTangent, ← unit_mul_tdiv]
  push_cast
  rw [mul_assoc]
  rfl

theorem arctangentLoop_ends (x : ℤ) (w : ℕ) :
    ∃ sum, (arctangentLoop x w).EndsWith sum ∧ atan x w = sum * 8 := by
  have heighth : halfAngle (powerOfTen w) (halfAngle (powerOfTen w) (halfAngle (powerOfTen w) x)) =
      signOf x * eighthAngleTangent (powerOfTen w) x.natAbs := by
    rw [eighthAngleTangent, ← halfAngle_eq, ← halfAngle_eq, ← halfAngle_eq, signOf_mul_natAbs]
  rw [atan_eq, withSign_eq, ← signedSum_neg_one, arctangentLoop]
  simp only [heighth]
  exact ⟨_, oddLoop_ends _ _ (halfAngleTangent_le _ _), rfl⟩

theorem inverseLoop_ends (positive : 0 < q) (alternates : Bool) (scale : ℤ) :
    (inverseLoop alternates q scale).EndsWith
      (withSign scale (signedSum (alternation alternates)
        (inverseTerms q positive scale.natAbs q 0))) := by
  have hloop := inverseTurn_ends positive alternates (signOf scale) scale.natAbs q 0 0
  rw [signOf_mul_natAbs, pow_zero, mul_one, zero_add, ← withSign_eq] at hloop
  exact ⟨_, hloop⟩

/-- The loops of all functions end, whatever they are given, with what the functions are computed
from. -/
theorem loops_end :
    (∀ x w, ∃ sum, (exponentialLoop x w).EndsWith sum ∧
      exp x w = squareTimes (powerOfTen w) halvings sum) ∧
    (∀ x w, (sineLoop x w).EndsWith (sin x w) ∧ (cosineLoop x w).EndsWith (cos x w)) ∧
    (∀ x w, ∃ sum, (arctangentLoop x w).EndsWith sum ∧ atan x w = sum * 8) ∧
    (∀ a w, ∃ sum, (logarithmLoop a w).EndsWith sum ∧
      ln a w = sum * (Nat.pow 2 (rootings + 1) : ℕ)) ∧
    ∀ (q : ℕ) (hq : 2 ≤ q) (scale : ℤ),
      (inverseLoop true q scale).EndsWith
        (withSign scale (arctanInverse q (by omega) scale.natAbs)) ∧
      (inverseLoop false q scale).EndsWith
        (withSign scale (artanhInverse q (by omega) scale.natAbs)) := by
  refine ⟨exponentialLoop_ends, fun x w => ⟨sineLoop_ends x w, cosineLoop_ends x w⟩,
    arctangentLoop_ends, logarithmLoop_ends, fun q hq scale => ⟨?_, ?_⟩⟩
  · rw [arctanInverse, ← signedSum_neg_one]
    exact inverseLoop_ends (by omega) true scale
  · rw [artanhInverse, ← signedSum_one]
    exact inverseLoop_ends (by omega) false scale

theorem loops_end_instance :
    2 ≤ 3 ∧ (sineLoop 123456 2).EndsWith (sin 123456 2) ∧
      (inverseLoop true 3 (-1000)).EndsWith (-arctanInverse 3 (by decide) 1000) ∧
      ∃ sum, (logarithmLoop 1 3).EndsWith sum ∧ ln 1 3 = sum * (Nat.pow 2 (rootings + 1) : ℕ) :=
  ⟨by decide, (loops_end.2.1 123456 2).1, (loops_end.2.2.2.2 3 (by decide) (-1000)).1,
    loops_end.2.2.2.1 1 3⟩

end DeskCalculator.FixedPoint
