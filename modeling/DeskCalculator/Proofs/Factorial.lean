import DeskCalculator.NamedFunction
import DeskCalculator.Proofs.Addition
import DeskCalculator.Proofs.RepeatedSquaring

/-!
# The factorial

The loop of the factorial as a relation that counts nothing down: its runs are those of the loop as
it is written, and there is one whatever `n` is. The counter is a decimal that is rounded like any
other, so it grows by one up to `10 ^ digits` and then stands still. Up to there a run visits the
integers one after another, and each product is off by one rounding more than the one before. A
counter that stands still is never above a larger `n`, and such a run goes on until the product has
left the range.
-/

set_option autoImplicit false

namespace DeskCalculator

open DeskCalculator.Natural DeskCalculator.Decimal

/-! ### Roundings that follow each other -/

def WithinErrors (u : ℚ) (k : ℕ) (q r : ℚ) : Prop := q * (1 - u) ^ k ≤ r ∧ r ≤ q * (1 + u) ^ k

namespace WithinErrors

variable {u q r s : ℚ} {k m : ℕ}

theorem refl (u q : ℚ) : WithinErrors u 0 q q := by simp [WithinErrors]

theorem mul_right (h : WithinErrors u k q r) {a : ℚ} (ha : 0 ≤ a) :
    WithinErrors u k (q * a) (r * a) := by
  have hlow := mul_le_mul_of_nonneg_right h.1 ha
  have hhigh := mul_le_mul_of_nonneg_right h.2 ha
  constructor <;> linarith

theorem trans (hu : 0 ≤ u) (hu1 : u ≤ 1) (h : WithinErrors u k q r) (h' : WithinErrors u m r s) :
    WithinErrors u (k + m) q s := by
  constructor
  · calc q * (1 - u) ^ (k + m) = q * (1 - u) ^ k * (1 - u) ^ m := by ring
      _ ≤ r * (1 - u) ^ m := mul_le_mul_of_nonneg_right h.1 (pow_nonneg (by linarith) m)
      _ ≤ s := h'.1
  · calc s ≤ r * (1 + u) ^ m := h'.2
      _ ≤ q * (1 + u) ^ k * (1 + u) ^ m :=
          mul_le_mul_of_nonneg_right h.2 (pow_nonneg (by linarith) m)
      _ = q * (1 + u) ^ (k + m) := by ring

theorem mono (hu : 0 ≤ u) (hu1 : u ≤ 1) (hq : 0 ≤ q) (hkm : k ≤ m) (h : WithinErrors u k q r) :
    WithinErrors u m q r := by
  constructor
  · refine (mul_le_mul_of_nonneg_left ?_ hq).trans h.1
    exact pow_le_pow_of_le_one (by linarith) (by linarith) hkm
  · refine h.2.trans (mul_le_mul_of_nonneg_left ?_ hq)
    exact pow_le_pow_right₀ (by linarith) hkm

end WithinErrors

theorem IsRounding.withinErrors {c : Context} {q r : ℚ} (h : IsRounding c.digits q r)
    (hq : 0 ≤ q) : WithinErrors c.roundoff 1 q r := by
  have hoff := h.abs_sub_le_mul
  rw [abs_of_nonneg hq, ← Context.roundoff] at hoff
  obtain ⟨hlow, hhigh⟩ := abs_le.mp hoff
  constructor <;> rw [pow_one] <;> linarith

namespace Decimal

variable {n acc acc' counter : Decimal} {c : Context} {i : ℕ}

/-! ### The run -/

/-- The runs of the loop from a counter and a product: the counters that are visited, in order, and
the product in the end, if all products and counters are in the range. -/
inductive FactorialRun (n : Decimal) (c : Context) :
    Decimal → Decimal → List Decimal → Option Decimal → Prop
  | passed {counter acc : Decimal} (h : counter.cmp n = .gt) :
      FactorialRun n c counter acc [] (some acc)
  | refused {counter acc : Decimal} (h : ¬counter.cmp n = .gt) (hmul : acc.mul counter c = none) :
      FactorialRun n c counter acc [counter] none
  | lost {counter acc acc' : Decimal} (h : ¬counter.cmp n = .gt)
      (hmul : acc.mul counter c = some acc') (hadd : counter.add one c = none) :
      FactorialRun n c counter acc [counter] none
  | turn {counter acc acc' counter' : Decimal} {visited : List Decimal} {o : Option Decimal}
      (h : ¬counter.cmp n = .gt) (hmul : acc.mul counter c = some acc')
      (hadd : counter.add one c = some counter') (rest : FactorialRun n c counter' acc' visited o) :
      FactorialRun n c counter acc (counter :: visited) o

theorem FactorialRun.factorialLoop_eq {visited : List Decimal} {o : Option Decimal}
    (hrun : FactorialRun n c counter acc visited o) {steps : ℕ} (hsteps : visited.length ≤ steps) :
    factorialLoop n c steps counter acc = o := by
  induction hrun generalizing steps with
  | passed h =>
    cases steps with
    | zero => rfl
    | succ steps => rw [factorialLoop, if_pos h]
  | refused h hmul =>
    obtain ⟨steps, rfl⟩ := Nat.exists_eq_add_of_le' hsteps
    rw [List.length_singleton, factorialLoop, if_neg h, hmul]
    rfl
  | lost h hmul hadd =>
    obtain ⟨steps, rfl⟩ := Nat.exists_eq_add_of_le' hsteps
    rw [List.length_singleton, factorialLoop, if_neg h, hmul, hadd]
    rfl
  | turn h hmul hadd _ ih =>
    obtain ⟨steps, rfl⟩ := Nat.exists_eq_add_of_le' hsteps
    rw [List.length_cons, ← Nat.add_assoc, factorialLoop, if_neg h, hmul, hadd]
    exact ih (Nat.le_add_left _ _)

/-! ### The counter -/

theorem length_ofInt_le {d : ℕ} (hd : 0 < d) (h : i ≤ tens d) : (ofInt i).length ≤ d :=
  length_ofScaled_le 0 hd (by rwa [Int.natAbs_natCast])

theorem not_cmp_gt_iff : ¬(ofInt i).cmp n = .gt ↔ (i : ℚ) ≤ n.value := by
  rw [cmp_eq_compare_value, value_ofInt, compare_gt_iff_gt, not_lt, Int.cast_natCast]

def nextCounter (c : Context) (i : ℕ) : ℕ := min (i + 1) (tens c.digits)

theorem isRounding_nextCounter (hi : i ≤ tens c.digits) :
    IsRounding c.digits (i + 1) (nextCounter c i : ℕ) := by
  by_cases hlt : i + 1 ≤ tens c.digits
  · rw [nextCounter, min_eq_left hlt]
    have hround := round_isRounding (ofInt (i + 1 : ℕ)) c.positive
    rw [round_of_length_le (length_ofInt_le c.positive hlt), value_ofInt] at hround
    exact_mod_cast hround
  · obtain rfl : i = tens c.digits := by omega
    rw [nextCounter, min_eq_right (Nat.le_succ _), cast_tens_zpow]
    have hpow : (10 : ℚ) ^ (c.digits : ℤ) = 10 ^ (c.digits - 1 : ℕ) * 10 := by
      rw [zpow_natCast, ← pow_succ, Nat.sub_add_cancel c.positive]
    have hle : (10 : ℚ) ^ (0 : ℤ) ≤ 10 ^ (c.digits : ℤ) := ten_zpow_le.mpr (by omega)
    have habs : |(10 : ℚ) ^ (c.digits : ℤ) + 1| = 10 ^ (c.digits : ℤ) + 1 :=
      abs_of_pos (by linarith [ten_zpow_pos (c.digits : ℤ)])
    have hunit : (10 : ℚ) ^ ((c.digits : ℤ) + 1 - c.digits) = 10 := by
      rw [add_sub_cancel_left, zpow_one]
    refine .inr ⟨c.digits, (10 ^ (c.digits - 1) : ℕ), ?_, ?_, .of_lt ?_, ?_⟩
    · rw [habs]
      linarith
    · rw [zpow_zero] at hle
      rw [habs, ten_zpow_add, zpow_one]
      linarith
    · rw [hunit, hpow]
      push_cast
      rw [abs_lt]
      constructor <;> linarith
    · rw [hunit, hpow]
      push_cast
      ring

theorem adjusted_ofInt_nonneg (hi : 1 ≤ i) : 0 ≤ (ofInt i).adjusted := by
  have hone : (1 : ℚ) ≤ (ofInt i).value := by
    rw [value_ofInt]
    exact_mod_cast hi
  refine not_lt.mp fun hlt => ?_
  have habs := (adjusted_lt_iff (by linarith)).mp hlt
  rw [abs_of_pos (by linarith), zpow_zero] at habs
  linarith

theorem adjusted_ofInt_le (hi : 1 ≤ i) {d : ℕ} (h : i ≤ tens d) : (ofInt i).adjusted ≤ d := by
  have hvalue : (ofInt i).value = i := by rw [value_ofInt, Int.cast_natCast]
  have hpos : (0 : ℚ) < i := by exact_mod_cast hi
  have hle : (i : ℚ) ≤ 10 ^ (d : ℤ) := cast_tens_zpow d ▸ Nat.cast_le.mpr h
  refine Int.lt_add_one_iff.mp ((adjusted_lt_iff (hvalue ▸ hpos.ne')).mpr ?_)
  rw [hvalue, abs_of_pos hpos]
  exact hle.trans_lt (ten_zpow_lt.mpr (by omega))

theorem alignable_counter (hi : 1 ≤ i) (hle : i ≤ tens c.digits) (hsmall : i ≤ tens 17) :
    Alignable (ofInt i) one c := by
  have hlow := adjusted_ofInt_nonneg hi
  have hhigh := adjusted_ofInt_le hi hle
  have hshort := adjusted_ofInt_le hi hsmall
  have hadjusted := (ofInt i).adjusted_eq
  have hlength := (ofInt i).length_pos
  have hinteger : 0 ≤ (ofInt i).exponent :=
    of_decide_eq_true (isInteger_iff.mpr ⟨i, value_ofInt i⟩)
  have hexponent : one.exponent = 0 := rfl
  have hsize : UInt32.size = 4294967296 := rfl
  unfold Alignable
  simp only [exponent_besides, adjusted_one, hexponent]
  split_ifs <;> constructor <;> omega

theorem counter_add_one (hi : 1 ≤ i) (hle : i ≤ tens c.digits) (hsmall : i ≤ tens 17) :
    (ofInt i).add one c = some (ofInt (nextCounter c i)) := by
  obtain ⟨r, hadd, -, hr⟩ := add_eq (alignable_counter hi hle hsmall)
  have hlength := length_ofInt_le c.positive hle
  have hone := length_one
  rw [visibleSum_of_length_le (fun _ => by omega) (fun _ => by omega), value_one, value_ofInt,
    Int.cast_natCast] at hr
  obtain rfl : r = ofInt (nextCounter c i) := value_injective (by
    rw [value_ofInt, Int.cast_natCast]
    exact hr.unique (isRounding_nextCounter hle))
  have hnext : nextCounter c i ≤ tens 18 :=
    (min_le_left _ _).trans (by rw [tens_eq_pow] at hsmall ⊢; omega)
  have hpos : 1 ≤ nextCounter c i := le_min (by omega) (by omega)
  have hrange : (ofInt (nextCounter c i)).InRange := by
    have hmax : maxAdjusted = 9000000000000000 := rfl
    have hlow := adjusted_ofInt_nonneg hpos
    have hhigh := adjusted_ofInt_le hpos hnext
    exact (inRange_iff_adjusted _).mpr ⟨by omega, by omega⟩
  rw [hadd, bounded?, if_pos hrange]

/-! ### One turn -/

/-- What holds whenever the counter is compared: it is an integer up to `10 ^ digits`, and the
product is rounded and in the range. Counters of more than sixteen digits have brought the product
sixteen digits each, so they do not grow much longer before the product leaves the range. -/
structure FactorialState (c : Context) (i : ℕ) (acc : Decimal) : Prop where
  two_le : 2 ≤ i
  le_tens : i ≤ tens c.digits
  settled : Settled c acc
  grows : (10 : ℚ) ^ ((16 * (i - 10 ^ 16) : ℕ) : ℤ) ≤ acc.value

namespace FactorialState

theorem start (c : Context) : FactorialState c 2 one where
  two_le := le_rfl
  le_tens := by
    have hten : tens 1 ≤ tens c.digits := tens_le_tens c.positive
    exact le_trans (by decide) hten
  settled := settled_one
  grows := by rw [value_one]; norm_num

variable (h : FactorialState c i acc)

include h

theorem one_le_acc : 1 ≤ acc.value :=
  (one_le_zpow₀ (by norm_num) (Int.natCast_nonneg _)).trans h.grows

theorem counter_le : i ≤ tens 17 := by
  have hlt := h.grows.trans_lt ((le_abs_self _).trans_lt h.settled.inRange.abs_lt)
  have hexponent := ten_zpow_lt.mp hlt
  have hmax : maxAdjusted = 9000000000000000 := rfl
  rw [tens_eq_pow]
  omega

theorem add_one : (ofInt i).add one c = some (ofInt (nextCounter c i)) :=
  counter_add_one (by linarith [h.two_le]) h.le_tens h.counter_le

theorem next (hsettled : Settled c acc') (hr : IsRounding c.digits (acc.value * i) acc'.value) :
    FactorialState c (nextCounter c i) acc' where
  two_le := le_min (by linarith [h.two_le]) ((start c).le_tens)
  le_tens := min_le_right _ _
  settled := hsettled
  grows := by
    refine hr.ten_zpow_le_of_le c.positive ?_
    have htwo : (1 : ℚ) ≤ i := by exact_mod_cast (by linarith [h.two_le] : 1 ≤ i)
    have hnext : nextCounter c i ≤ i + 1 := min_le_left _ _
    have hacc := h.one_le_acc
    by_cases hlarge : 10 ^ 16 ≤ i
    · have hi : (10 : ℚ) ^ (16 : ℤ) ≤ i := by exact_mod_cast hlarge
      calc (10 : ℚ) ^ ((16 * (nextCounter c i - 10 ^ 16) : ℕ) : ℤ)
          ≤ 10 ^ (((16 * (i - 10 ^ 16) : ℕ) : ℤ) + 16) := ten_zpow_le.mpr (by omega)
        _ = 10 ^ ((16 * (i - 10 ^ 16) : ℕ) : ℤ) * 10 ^ (16 : ℤ) := ten_zpow_add _ _
        _ ≤ acc.value * i := mul_le_mul h.grows hi (ten_zpow_pos _).le (by linarith)
    · rw [show 16 * (nextCounter c i - 10 ^ 16) = 0 by omega, Nat.cast_zero, zpow_zero]
      nlinarith

theorem mul_counter :
    acc.mul (ofInt i) c = none ∧
        (∃ r, IsRounding c.digits (acc.value * i) r ∧ 10 ^ (maxAdjusted + 1) ≤ r) ∨
      ∃ acc', acc.mul (ofInt i) c = some acc' ∧ FactorialState c (nextCounter c i) acc' ∧
        IsRounding c.digits (acc.value * i) acc'.value := by
  have htwo : (2 : ℚ) ≤ i := by exact_mod_cast h.two_le
  have hproduct : (10 : ℚ) ^ (0 : ℤ) ≤ acc.value * i := by
    rw [zpow_zero]
    nlinarith [h.one_le_acc]
  obtain ⟨r, hlength, hr, hmul⟩ := rounds_mul (c := c) acc (ofInt i)
  rw [value_ofInt, Int.cast_natCast] at hr
  have hone : 1 ≤ r.value := by simpa using hr.ten_zpow_le_of_le c.positive hproduct
  have hpos : |r.value| = r.value := abs_of_pos (by linarith)
  rw [bounded?_eq_ite] at hmul
  split at hmul
  · next hhigh =>
    refine .inl ⟨hmul, r.value, hr, ?_⟩
    rw [← hpos]
    exact (ten_zpow_le.mpr (by omega)).trans (le_abs_value (by linarith))
  · next hhigh =>
    have hlow : 0 ≤ r.adjusted := not_lt.mp fun hlt => by
      have habs := (adjusted_lt_iff (by linarith)).mp hlt
      rw [hpos, zpow_zero] at habs
      linarith
    have hmax : 0 ≤ maxAdjusted := by decide
    rw [if_neg (by omega)] at hmul
    have hrange : r.InRange := (inRange_iff_adjusted r).mpr ⟨by omega, by omega⟩
    exact .inr ⟨r, hmul, h.next ⟨hrange, hlength⟩ hr, hr⟩

theorem adjusted_lt (hi : i = tens c.digits)
    (hr : IsRounding c.digits (acc.value * i) acc'.value) : acc.adjusted < acc'.adjusted := by
  have hacc : 0 < acc.value := by linarith [h.one_le_acc]
  have hle : (10 : ℚ) ^ acc.adjusted ≤ acc.value := by
    have := le_abs_value hacc.ne'
    rwa [abs_of_pos hacc] at this
  have hproduct : (10 : ℚ) ^ (acc.adjusted + c.digits) ≤ acc.value * i := by
    rw [ten_zpow_add, hi, cast_tens_zpow]
    exact mul_le_mul_of_nonneg_right hle (ten_zpow_pos _).le
  have hnext := (hr.ten_zpow_le_of_le c.positive hproduct).trans (le_abs_self _)
  have hdigits := c.positive
  have hlt := ten_zpow_lt.mp (hnext.trans_lt (abs_value_lt acc'))
  omega

end FactorialState

/-! ### Whole runs -/

/-- There is a run from every state: the counter comes closer to `10 ^ digits` at each turn, and
where it stands still the product comes closer to the end of the range. -/
theorem FactorialState.exists_run (n : Decimal) {i : ℕ} {acc : Decimal}
    (h : FactorialState c i acc) : ∃ visited o, FactorialRun n c (ofInt i) acc visited o := by
  by_cases hpassed : (ofInt i).cmp n = .gt
  · exact ⟨[], some acc, .passed hpassed⟩
  rcases h.mul_counter with ⟨hmul, -⟩ | ⟨acc', hmul, h', hr⟩
  · exact ⟨[ofInt i], none, .refused hpassed hmul⟩
  · obtain ⟨visited, o, hrun⟩ := exists_run n h'
    exact ⟨ofInt i :: visited, o, .turn hpassed hmul h.add_one hrun⟩
termination_by (tens c.digits - i, (maxAdjusted + 1 - acc.adjusted).toNat)
decreasing_by
  have hle := h.le_tens
  by_cases hi : i = tens c.digits
  · have hnext : nextCounter c i = i := by rw [nextCounter, hi]; exact min_eq_right (Nat.le_succ _)
    have hlt := h.adjusted_lt hi hr
    have hhigh := ((inRange_iff_adjusted acc').mp h'.settled.inRange).2
    rw [hnext]
    exact Prod.Lex.right _ (by omega)
  · have hnext : nextCounter c i = i + 1 := min_eq_left (by omega)
    exact Prod.Lex.left _ _ (by omega)

theorem FactorialRun.eq_none (hn : (tens c.digits : ℚ) ≤ n.value) {visited : List Decimal}
    {o : Option Decimal} (hrun : FactorialRun n c counter acc visited o) {i : ℕ}
    (hcounter : counter = ofInt i) (h : FactorialState c i acc) : o = none := by
  induction hrun generalizing i with
  | passed hpassed =>
    subst hcounter
    have hle : (i : ℚ) ≤ tens c.digits := by exact_mod_cast h.le_tens
    exact absurd hpassed (not_cmp_gt_iff.mpr (hle.trans hn))
  | refused _ _ => rfl
  | lost _ _ _ => rfl
  | turn _ hmul hadd _ ih =>
    subst hcounter
    rw [h.add_one] at hadd
    cases hadd
    rcases h.mul_counter with ⟨hnone, -⟩ | ⟨acc', hsome, h', -⟩
    · rw [hnone] at hmul
      cases hmul
    · rw [hsome] at hmul
      cases hmul
      exact ih rfl h'

theorem FactorialRun.le_of_mem {visited : List Decimal} {o : Option Decimal}
    (hrun : FactorialRun n c counter acc visited o) {i : ℕ} (hcounter : counter = ofInt i)
    (h : FactorialState c i acc) : ∀ x ∈ visited, x.value ≤ 10 ^ (17 : ℤ) := by
  have hle : ∀ {k : ℕ} {acc : Decimal}, FactorialState c k acc →
      (ofInt k).value ≤ 10 ^ (17 : ℤ) := by
    intro k acc hk
    rw [value_ofInt]
    exact_mod_cast hk.counter_le
  induction hrun generalizing i with
  | passed _ => nofun
  | refused _ _ | lost _ _ _ =>
    subst hcounter
    exact List.forall_mem_singleton.mpr (hle h)
  | turn _ hmul hadd _ ih =>
    subst hcounter
    rw [h.add_one] at hadd
    cases hadd
    rcases h.mul_counter with ⟨hnone, -⟩ | ⟨acc', hsome, h', -⟩
    · rw [hnone] at hmul
      cases hmul
    · rw [hsome] at hmul
      cases hmul
      exact List.forall_mem_cons.mpr ⟨hle h, ih rfl h'⟩

def countersFrom (i j : ℕ) : List Decimal := (List.range' i (j - i)).map fun k : ℕ => ofInt k

theorem countersFrom_of_lt {j : ℕ} (h : i < j) :
    countersFrom i j = ofInt i :: countersFrom (i + 1) j := by
  rw [countersFrom, show j - i = j - (i + 1) + 1 by omega, List.range'_succ]
  rfl

/-- What a run of an `n` below `10 ^ digits` gives from the counter `i` on. It ends with the counter
`j`, which is above `n` for the first time, or comes after the one whose product left the range. -/
structure FactorialOutcome (c : Context) (N i j : ℕ) (visited : List Decimal)
    (o : Option Decimal) : Prop where
  visited_eq : visited = countersFrom i j
  le : i ≤ j
  of_some : ∀ v, o = some v →
    j = max i (N + 1) ∧ WithinErrors c.roundoff (j - 2) (j - 1).factorial v.value
  of_none : o = none → i < j ∧ j ≤ N + 1 ∧
    10 ^ (maxAdjusted + 1) ≤ ((j - 1).factorial : ℚ) * (1 + c.roundoff) ^ (j - 2)

theorem withinErrors_next (hi : 2 ≤ i) {q r : ℚ}
    (hacc : WithinErrors c.roundoff (i - 2) (i - 1).factorial q)
    (hr : IsRounding c.digits (q * i) r) :
    WithinErrors c.roundoff (i + 1 - 2) (i + 1 - 1).factorial r := by
  have hu := c.roundoff_nonneg
  have hu1 := c.roundoff_lt_one.le
  have hq : 0 ≤ q := (mul_nonneg (Nat.cast_nonneg _) (pow_nonneg (by linarith) _)).trans hacc.1
  have hprod := hacc.mul_right (Nat.cast_nonneg (α := ℚ) i)
  have hnext := hprod.trans hu hu1 (hr.withinErrors (mul_nonneg hq (Nat.cast_nonneg i)))
  have hfactorial : (((i - 1).factorial : ℕ) : ℚ) * i = (i + 1 - 1).factorial := by
    rw [Nat.add_sub_cancel, mul_comm]
    exact_mod_cast Nat.mul_factorial_pred (by omega)
  rwa [hfactorial, show i - 2 + 1 = i + 1 - 2 by omega] at hnext

theorem FactorialRun.exists_outcome {N : ℕ} (hn : n.value = N) (hN : N < tens c.digits)
    {visited : List Decimal} {o : Option Decimal}
    (hrun : FactorialRun n c counter acc visited o) {i : ℕ} (hcounter : counter = ofInt i)
    (h : FactorialState c i acc)
    (hacc : WithinErrors c.roundoff (i - 2) (i - 1).factorial acc.value) :
    ∃ j, FactorialOutcome c N i j visited o := by
  have hle : ∀ {k : ℕ}, ¬(ofInt k).cmp n = .gt ↔ k ≤ N := by
    intro k
    rw [not_cmp_gt_iff, hn, Nat.cast_le]
  induction hrun generalizing i with
  | passed hpassed =>
    subst hcounter
    have hi : N < i := not_le.mp fun hi => hle.mpr hi hpassed
    refine ⟨i, by simp [countersFrom], le_rfl, ?_, nofun⟩
    rintro v ⟨⟩
    exact ⟨(max_eq_left hi).symm, hacc⟩
  | refused hpassed hmul =>
    subst hcounter
    have hi := hle.mp hpassed
    have htwo := h.two_le
    rcases h.mul_counter with ⟨-, r, hr, hhigh⟩ | ⟨acc', hsome, -⟩
    · have hnext := withinErrors_next htwo hacc hr
      exact ⟨i + 1, by simp [countersFrom], by omega, nofun,
        fun _ => ⟨by omega, by omega, hhigh.trans hnext.2⟩⟩
    · rw [hmul] at hsome
      cases hsome
  | lost _ _ hadd =>
    subst hcounter
    rw [h.add_one] at hadd
    cases hadd
  | turn hpassed hmul hadd _ ih =>
    subst hcounter
    have hi := hle.mp hpassed
    have hstep : nextCounter c i = i + 1 := min_eq_left (by omega)
    rw [h.add_one] at hadd
    cases hadd
    rcases h.mul_counter with ⟨hnone, -⟩ | ⟨acc', hsome, h', hr⟩
    · rw [hnone] at hmul
      cases hmul
    rw [hsome] at hmul
    cases hmul
    rw [hstep] at h' ih
    obtain ⟨j, hvisited, hij, hsome, hnone⟩ := ih rfl h' (withinErrors_next h.two_le hacc hr)
    refine ⟨j, by rw [hvisited, ← countersFrom_of_lt (by omega)], by omega, fun v hv => ?_,
      fun ho => ?_⟩
    · obtain ⟨hj, hv⟩ := hsome v hv
      exact ⟨by omega, hv⟩
    · obtain ⟨hlt, hle, hhigh⟩ := hnone ho
      exact ⟨by omega, hle, hhigh⟩

theorem FactorialRun.exists_outcome_of_start {N : ℕ} (hn : n.value = N) (hN : N < tens c.digits)
    {visited : List Decimal} {o : Option Decimal}
    (hrun : FactorialRun n c (ofInt 2) one visited o) :
    ∃ j, FactorialOutcome c N 2 j visited o := by
  refine hrun.exists_outcome (i := 2) hn hN rfl (.start c) ?_
  rw [value_one, Nat.factorial_one, Nat.cast_one]
  exact .refl _ _

/-! ### The factorial -/

theorem naturalValue_eq {N : ℕ} (hn : n.value = N) : n.naturalValue = N := by
  have hinteger : 0 ≤ n.exponent :=
    of_decide_eq_true (isInteger_iff.mpr ⟨N, by rw [hn, Int.cast_natCast]⟩)
  have hvalue := (value_eq_intCast_iff hinteger).mp (hn.trans (Int.cast_natCast N).symm)
  rw [naturalValue, ← Int.natAbs_natCast N, ← hvalue, Int.natAbs_mul, Int.natAbs_natCast]

theorem digits_le_adjusted_iff {N : ℕ} (hn : n.value = N) :
    (c.digits : ℤ) ≤ n.adjusted ↔ tens c.digits ≤ N := by
  by_cases hN : N = 0
  · have hm := value_eq_zero.mp (hn.trans (by rw [hN, Nat.cast_zero]))
    have hadjusted := n.adjusted_eq
    rw [exponent_eq_zero hm, length_eq_one hm] at hadjusted
    have hdigits := c.positive
    have htens := tens_pos c.digits
    constructor <;> intro <;> omega
  · have hpos : (0 : ℚ) < N := by exact_mod_cast Nat.pos_of_ne_zero hN
    rw [← not_lt, adjusted_lt_iff (hn ▸ hpos.ne'), hn, abs_of_pos hpos, ← cast_tens_zpow, Nat.cast_lt,
      not_lt]

theorem factorial_eq_domain_iff (n : Decimal) (c : Context) :
    (∃ e, n.factorial c = .error e ∧ e.kind = .domain) ↔
      n.value < 0 ∨ ¬∃ m : ℤ, n.value = m := by
  rw [← isNegative_iff, ← isInteger_iff, factorial]
  by_cases hrefused : (!n.isInteger || n.isNegative) = true
  · rw [if_pos hrefused]
    simp only [Bool.or_eq_true, Bool.not_eq_true', ← Bool.not_eq_true] at hrefused
    exact iff_of_true ⟨_, rfl, rfl⟩ hrefused.symm
  · rw [if_neg hrefused]
    simp only [Bool.or_eq_true, Bool.not_eq_true', ← Bool.not_eq_true] at hrefused
    refine iff_of_false ?_ fun h => hrefused h.symm
    have hrange : ∀ o : Option Decimal, ¬∃ e, orOutOfRange o = .error e ∧ e.kind = .domain := by
      rintro (_ | v) ⟨e, he, hkind⟩ <;> cases he
      cases hkind
    split
    · exact hrange none
    · exact hrange _

theorem factorial_eq_of_run {N : ℕ} (hn : n.value = N) {visited : List Decimal} {o : Option Decimal}
    (hrun : FactorialRun n c (ofInt 2) one visited o) : n.factorial c = orOutOfRange o := by
  have hinteger : n.isInteger = true := isInteger_iff.mpr ⟨N, by rw [hn, Int.cast_natCast]⟩
  have hnegative : ¬n.isNegative = true := by
    rw [isNegative_iff, hn]
    exact not_lt.mpr (Nat.cast_nonneg N)
  rw [factorial, if_neg (by simp [hinteger, hnegative])]
  split
  · next hlarge =>
    have hN := (digits_le_adjusted_iff hn).mp hlarge
    rw [hrun.eq_none (i := 2) (by rw [hn]; exact_mod_cast hN) rfl (.start c)]
    rfl
  · next hsmall =>
    have hN : N < tens c.digits := not_le.mp fun hN => hsmall ((digits_le_adjusted_iff hn).mpr hN)
    obtain ⟨j, houtcome⟩ := hrun.exists_outcome_of_start hn hN
    have hlength : visited.length ≤ N := by
      rw [houtcome.visited_eq, countersFrom, List.length_map, List.length_range']
      cases o with
      | some v =>
        have hj := (houtcome.of_some v rfl).1
        omega
      | none =>
        have hj := (houtcome.of_none rfl).2.1
        omega
    rw [naturalValue_eq hn, hrun.factorialLoop_eq hlength]

/-- The factorial is refused for negative numbers and for those that are no integers, and for no
other. For a natural number the loop ends, and what it ends with is the factorial. Below
`10 ^ digits` it has visited the integers from two to `n` by then, one after another, and its product
is `n!` after no more than `n` roundings, each off by a half of a unit at most. Only a product that
leaves the range ends it earlier, at a counter whose factorial lies above the range up to those
roundings. -/
theorem factorial_loop (n : Decimal) (c : Context) :
    ((∃ e, n.factorial c = .error e ∧ e.kind = .domain) ↔
      n.value < 0 ∨ ¬∃ m : ℤ, n.value = m) ∧
    ∀ N : ℕ, n.value = N →
      (∃ visited o, FactorialRun n c (ofInt 2) one visited o) ∧
      ∀ visited o, FactorialRun n c (ofInt 2) one visited o →
        n.factorial c = orOutOfRange o ∧
        (N < 10 ^ c.digits →
          (∀ v, o = some v → visited = (List.range' 2 (N - 1)).map (fun k : ℕ => ofInt k) ∧
            N.factorial * (1 - 5 * 10 ^ (-(c.digits : ℤ))) ^ N ≤ v.value ∧
            v.value ≤ N.factorial * (1 + 5 * 10 ^ (-(c.digits : ℤ))) ^ N) ∧
          (o = none → ∃ m, 2 ≤ m ∧ m ≤ N ∧
            visited = (List.range' 2 (m - 1)).map (fun k : ℕ => ofInt k) ∧
            10 ^ (maxAdjusted + 1) ≤
              (m.factorial : ℚ) * (1 + 5 * 10 ^ (-(c.digits : ℤ))) ^ m)) := by
  refine ⟨factorial_eq_domain_iff n c, fun N hn => ⟨(FactorialState.start c).exists_run n, ?_⟩⟩
  intro visited o hrun
  refine ⟨factorial_eq_of_run hn hrun, fun hN => ?_⟩
  have hu : (5 : ℚ) * 10 ^ (-(c.digits : ℤ)) = c.roundoff := by
    rw [Context.roundoff, sub_eq_add_neg, ten_zpow_add, zpow_one]
    ring
  have hu0 := c.roundoff_nonneg
  have hu1 := c.roundoff_lt_one.le
  rw [← tens_eq_pow] at hN
  rw [hu]
  obtain ⟨j, rfl, -, hsome, hnone⟩ := hrun.exists_outcome_of_start hn hN
  constructor
  · intro v hv
    obtain ⟨hj, hv⟩ := hsome v hv
    have hfactorial : (j - 1).factorial = N.factorial := by
      rcases Nat.eq_zero_or_pos N with rfl | hpos
      · rw [show j - 1 = 1 by omega]
        rfl
      · rw [show j - 1 = N by omega]
    rw [hfactorial] at hv
    refine ⟨by rw [countersFrom, show j - 2 = N - 1 by omega], ?_⟩
    exact hv.mono hu0 hu1 (Nat.cast_nonneg _) (by omega)
  · intro ho
    obtain ⟨htwo, hjN, hhigh⟩ := hnone ho
    refine ⟨j - 1, by omega, by omega, rfl, hhigh.trans ?_⟩
    exact mul_le_mul_of_nonneg_left (pow_le_pow_right₀ (by linarith) (by omega)) (Nat.cast_nonneg _)

theorem factorial_loop_seven :
    let c := Context.ofDigits 2
    ∃ v, FactorialRun (ofInt 7) c (ofInt 2) one ([2, 3, 4, 5, 6, 7].map ofInt) (some v) ∧
      (ofInt 7).factorial c = .ok v ∧ v = ofInt 5000 ∧
      Nat.factorial 7 * (1 - 5 * 10 ^ (-(c.digits : ℤ))) ^ 7 ≤ v.value ∧
      v.value ≤ Nat.factorial 7 * (1 + 5 * 10 ^ (-(c.digits : ℤ))) ^ 7 := by
  intro c
  obtain ⟨⟨visited, o, hrun⟩, hall⟩ := (factorial_loop (ofInt 7) c).2 7 (value_ofInt 7)
  obtain ⟨heq, hbelow⟩ := hall visited o hrun
  have hvalue : (ofInt 7).factorial c = .ok (ofInt 5000) := by decide +kernel
  obtain rfl : o = some (ofInt 5000) := by
    rw [hvalue] at heq
    cases o <;> cases heq
    rfl
  obtain ⟨hvisited, hlow, hhigh⟩ := (hbelow (by decide)).1 _ rfl
  subst hvisited
  exact ⟨_, hrun, hvalue, rfl, hlow, hhigh⟩

/-- The integers from two to `10 ^ 18` fit 28 digits, and yet their loop does not get to the last
of them: the product leaves the range before. -/
theorem factorial_counters_stop_short :
    let c := Context.ofDigits 28
    let N : ℕ := 10 ^ 18
    (ofInt N).value = N ∧ N < 10 ^ c.digits ∧
      (ofInt N).factorial c = .error .outOfRange ∧
      ∃ visited o, FactorialRun (ofInt N) c (ofInt 2) one visited o ∧
        visited ≠ (List.range' 2 (N - 1)).map fun k : ℕ => ofInt k := by
  intro c N
  have hvalue : (ofInt N).value = N := by
    rw [value_ofInt, Int.cast_natCast]
  have hN : N < tens c.digits := by
    rw [tens_eq_pow]
    exact Nat.pow_lt_pow_right (by decide) (by decide)
  obtain ⟨visited, o, hrun⟩ := (FactorialState.start c).exists_run (ofInt N)
  have hle := hrun.le_of_mem rfl (.start c)
  have hlast : ofInt N ∉ visited := by
    intro hmem
    have hsmall := hle _ hmem
    rw [hvalue] at hsmall
    norm_num [N] at hsmall
  have hmem : ofInt N ∈ (List.range' 2 (N - 1)).map fun k : ℕ => ofInt k := by
    refine List.mem_map_of_mem (f := fun k : ℕ => ofInt k) (List.mem_range'_1.mpr ?_)
    omega
  have hne : visited ≠ (List.range' 2 (N - 1)).map fun k : ℕ => ofInt k :=
    fun heq => hlast (heq ▸ hmem)
  refine ⟨hvalue, tens_eq_pow _ ▸ hN, ?_, visited, o, hrun, hne⟩
  rw [factorial_eq_of_run hvalue hrun]
  cases o with
  | none => rfl
  | some v =>
    -- a run that gives a product has visited all the integers
    obtain ⟨j, hvisited, -, hsome, -⟩ := hrun.exists_outcome_of_start hvalue hN
    obtain ⟨hj, -⟩ := hsome v rfl
    refine absurd (hvisited.trans ?_) hne
    rw [countersFrom, hj, show max 2 (N + 1) - 2 = N - 1 by omega]

end Decimal

end DeskCalculator
