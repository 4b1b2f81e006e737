import DeskCalculator.FixedPoint.Series
import Mathlib

/-!
# Truncated series against exact ones

A series on scaled integers drops a fraction at each term and leaves off where a term comes to
zero. Each of its terms is therefore a little below the exact one, and the exact terms that it
leaves out are small. How far the sums are apart follows from how many terms there are and how
far each is off. Where the exact terms alternate and fall, what is left of their sum from some term
on is no more than that term.
-/

set_option autoImplicit false

namespace DeskCalculator.FixedPoint

open Filter Topology

theorem abs_tdiv_sub_lt (z : ℤ) {d : ℕ} (hd : 0 < d) : |((z.tdiv d : ℤ) : ℝ) - z / d| < 1 := by
  have hdr : (0 : ℝ) < d := by exact_mod_cast hd
  have hdz : (0 : ℤ) < d := by exact_mod_cast hd
  have hrem : |((z.tmod d : ℤ) : ℝ)| < d := by
    exact_mod_cast abs_lt.mpr ⟨Int.lt_tmod_of_pos z hdz, Int.tmod_lt_of_pos z hdz⟩
  have hz : (z : ℝ) = d * (z.tdiv d : ℤ) + (z.tmod d : ℤ) := by
    exact_mod_cast (Int.mul_tdiv_add_tmod z d).symm
  have hoff : ((z.tdiv d : ℤ) : ℝ) - z / d = -((z.tmod d : ℤ) / d) := by
    rw [hz]
    field_simp
    ring
  rw [hoff, abs_neg, abs_div, abs_of_pos hdr, div_lt_one hdr]
  exact hrem

theorem abs_tdiv_le (z : ℤ) (d : ℕ) : |((z.tdiv d : ℤ) : ℝ)| ≤ |(z : ℝ)| / d := by
  have hquotient : (z.tdiv d).natAbs = z.natAbs / d := by
    rw [Int.natAbs_tdiv]
    rfl
  rw [← Int.cast_abs, ← Int.cast_abs, Int.abs_eq_natAbs, Int.abs_eq_natAbs, hquotient,
    Int.cast_natCast, Int.cast_natCast]
  exact Nat.cast_div_le

theorem abs_tdiv_sub_le {z : ℤ} {d : ℕ} (hd : 0 < d) {r b : ℝ} (h : |(z : ℝ) - r * d| ≤ b) :
    |((z.tdiv d : ℤ) : ℝ) - r| ≤ b / d + 1 := by
  have hdr : (0 : ℝ) < d := by exact_mod_cast hd
  have hquotient : |(z : ℝ) / d - r| ≤ b / d := by
    rw [show (z : ℝ) / d - r = (z - r * d) / d by field_simp, abs_div, abs_of_pos hdr]
    exact div_le_div_of_nonneg_right h hdr.le
  linarith [abs_sub_le ((z.tdiv d : ℤ) : ℝ) (z / d) r, abs_tdiv_sub_lt z hd]

/-- The list has for `a n`, `a (n + 1)` and so on a term that is not above it and off by `ε` at
most, and ends where `a` itself is no more than that. -/
inductive Follows (a ε : ℕ → ℝ) : ℕ → List ℕ → Prop
  | ends {n : ℕ} (low : 0 ≤ a n) (high : a n ≤ ε n) : Follows a ε n []
  | term {n t : ℕ} {ts : List ℕ} (positive : 0 < t) (low : t ≤ a n) (high : a n ≤ t + ε n)
      (rest : Follows a ε (n + 1) ts) : Follows a ε n (t :: ts)

/-! ### Alternating sums -/

noncomputable def remainder (a : ℕ → ℝ) (l : ℝ) (n : ℕ) : ℝ :=
  (-1) ^ n * (l - ∑ k ∈ Finset.range n, (-1) ^ k * a k)

variable {a ε : ℕ → ℝ} {l δ : ℝ} {n : ℕ} {ts : List ℕ}

theorem remainder_zero (a : ℕ → ℝ) (l : ℝ) : remainder a l 0 = l := by simp [remainder]

theorem remainder_eq_sub (a : ℕ → ℝ) (l : ℝ) (n : ℕ) :
    remainder a l n = a n - remainder a l (n + 1) := by
  have hsign : ((-1 : ℝ) ^ n) * (-1) ^ n = 1 := by rw [← mul_pow, neg_one_mul, neg_neg, one_pow]
  unfold remainder
  rw [Finset.sum_range_succ, pow_succ]
  linear_combination a n * hsign

/-- The rest of an alternating sum of falling terms lies between zero and the next term. -/
theorem remainder_bounds (hsum : HasSum (fun k => (-1) ^ k * a k) l)
    (hfalls : ∀ k, n ≤ k → a (k + 1) ≤ a k) : 0 ≤ remainder a l n ∧ remainder a l n ≤ a n := by
  have hrest : HasSum (fun k => (-1) ^ k * a (k + n)) (remainder a l n) := by
    have hsign : ∀ k, (-1 : ℝ) ^ n * ((-1) ^ (k + n) * a (k + n)) = (-1) ^ k * a (k + n) := by
      intro k
      rw [pow_add, ← mul_assoc, mul_left_comm, ← mul_pow, neg_one_mul, neg_neg, one_pow, mul_one]
    have h := ((hasSum_nat_add_iff' n).mpr hsum).mul_left ((-1 : ℝ) ^ n)
    simp only [hsign] at h
    exact h
  have hanti : Antitone fun k => a (k + n) := antitone_nat_of_succ_le fun k => by
    rw [Nat.add_right_comm]
    exact hfalls (k + n) (Nat.le_add_left n k)
  have hlow := hanti.alternating_series_le_tendsto hrest.tendsto_sum_nat 0
  have hhigh := hanti.tendsto_le_alternating_series hrest.tendsto_sum_nat 0
  simp only [Nat.mul_zero, Finset.sum_range_zero] at hlow
  simp only [Nat.mul_zero, Nat.zero_add, Finset.sum_range_one, pow_zero, one_mul] at hhigh
  exact ⟨hlow, hhigh⟩

theorem Follows.abs_alternating_sub_le (h : Follows a ε n ts) (hε : ∀ k, ε k ≤ δ)
    (hsum : HasSum (fun k => (-1) ^ k * a k) l) (hfalls : ∀ k, n ≤ k → a (k + 1) ≤ a k) :
    |(alternating ts : ℝ) - remainder a l n| ≤ (ts.length + 1) * δ := by
  induction h with
  | ends low high =>
    obtain ⟨h0, h1⟩ := remainder_bounds hsum hfalls
    rw [alternating, Int.cast_zero, zero_sub, abs_neg, abs_of_nonneg h0, List.length_nil,
      Nat.cast_zero, zero_add, one_mul]
    exact h1.trans (high.trans (hε _))
  | @term n t ts _ low high _ ih =>
    have hrest := abs_le.mp (ih fun k hk => hfalls k (by omega))
    have hterm := hε n
    rw [remainder_eq_sub, alternating, List.length_cons, abs_le]
    push_cast
    constructor <;> linarith

theorem Follows.length_le (h : Follows a ε n ts) {m : ℕ} (hn : n ≤ m) (hm : ∀ k, m ≤ k → a k < 1) :
    n + ts.length ≤ m := by
  induction h with
  | ends => exact hn
  | @term n t ts positive low _ _ ih =>
    have hone : (1 : ℝ) ≤ t := by exact_mod_cast positive
    have hlt : n < m := not_le.mp fun hle => absurd (hone.trans low) (not_le.mpr (hm n hle))
    have hrest := ih hlt
    rw [List.length_cons]
    omega

/-! ### Sums of positive terms -/

theorem hasSum_le_two_mul (hsum : HasSum (fun k => a (k + n)) l)
    (hhalves : ∀ k, n ≤ k → 2 * a (k + 1) ≤ a k) : l ≤ 2 * a n := by
  have hterm : ∀ k, a (k + n) ≤ 2 * a n / 2 / 2 ^ k := by
    intro k
    induction k with
    | zero => simp
    | succ k ih =>
      have hhalf := hhalves (k + n) (Nat.le_add_left n k)
      rw [pow_succ, ← div_div, le_div_iff₀ two_pos, Nat.add_right_comm]
      linarith
  exact hasSum_le hterm hsum (hasSum_geometric_two' (2 * a n))

theorem Follows.total_bounds (h : Follows a ε n ts) (hε : ∀ k, ε k ≤ δ) (hnonneg : ∀ k, 0 ≤ a k)
    (hsum : HasSum (fun k => a (k + n)) l) (hhalves : ∀ k, n ≤ k → 2 * a (k + 1) ≤ a k) :
    (total ts : ℝ) ≤ l ∧ l ≤ total ts + (ts.length + 2) * δ := by
  induction h generalizing l with
  | ends _ high =>
    have hlow := hsum.nonneg fun k => hnonneg (k + _)
    have hhigh := (hasSum_le_two_mul hsum hhalves).trans
      (mul_le_mul_of_nonneg_left (high.trans (hε _)) zero_le_two)
    rw [total, List.length_nil, Nat.cast_zero]
    exact ⟨hlow, by linarith⟩
  | @term n t ts _ low high _ ih =>
    have hrest : HasSum (fun k => a (k + (n + 1))) (l - a n) := by
      have hshift := (hasSum_nat_add_iff' 1).mpr hsum
      rw [Finset.sum_range_one, Nat.zero_add] at hshift
      simpa only [Nat.add_right_comm, Nat.add_assoc, Nat.add_comm 1] using hshift
    obtain ⟨hlow, hhigh⟩ := ih hrest fun k hk => hhalves k (by omega)
    have hterm := hε n
    rw [total, List.length_cons]
    push_cast
    constructor <;> linarith

/-! ### Factorial series -/

/-- The exact terms of a factorial series whose terms are truncated: `ratio` is what remains of
`ρ * scale` without its fraction. -/
structure IsFactorialSeries (ratio scale : ℕ) (divisor : ℕ → ℕ) (ρ : ℝ) (a : ℕ → ℝ) : Prop where
  first : 0 ≤ a 0
  step : ∀ n, a (n + 1) = a n * ρ / divisor (n + 1)
  low : ratio ≤ ρ * scale
  high : ρ * scale ≤ ratio + 1
  scale_pos : 0 < scale
  grows : ∀ n, n ≤ divisor n

namespace IsFactorialSeries

variable {ratio scale : ℕ} {divisor : ℕ → ℕ} {ρ C e : ℝ} {t : ℕ}

theorem ratio_nonneg (h : IsFactorialSeries ratio scale divisor ρ a) : 0 ≤ ρ := by
  have hs : (0 : ℝ) < scale := by exact_mod_cast h.scale_pos
  exact nonneg_of_mul_nonneg_left ((Nat.cast_nonneg ratio).trans h.low) hs

theorem divisor_pos (h : IsFactorialSeries ratio scale divisor ρ a) (n : ℕ) :
    (0 : ℝ) < divisor (n + 1) := by
  have hn := h.grows (n + 1)
  exact_mod_cast (by omega : 0 < divisor (n + 1))

theorem nonneg (h : IsFactorialSeries ratio scale divisor ρ a) (n : ℕ) : 0 ≤ a n := by
  induction n with
  | zero => exact h.first
  | succ n ih =>
    rw [h.step]
    exact div_nonneg (mul_nonneg ih h.ratio_nonneg) (h.divisor_pos n).le

theorem step_le (h : IsFactorialSeries ratio scale divisor ρ a) {q : ℝ} {n : ℕ}
    (hq : ρ ≤ q * divisor (n + 1)) : a (n + 1) ≤ q * a n := by
  rw [h.step, div_le_iff₀ (h.divisor_pos n)]
  linarith [mul_le_mul_of_nonneg_left hq (h.nonneg n)]

theorem truncated_step (h : IsFactorialSeries ratio scale divisor ρ a)
    (hC : a n ≤ C * scale) (hlow : t ≤ a n) (hhigh : a n ≤ t + e) :
    ((t * ratio / scale / divisor (n + 1) : ℕ) : ℝ) ≤ a (n + 1) ∧
      a (n + 1) ≤ (t * ratio / scale / divisor (n + 1) : ℕ) + (1 + (ρ * e + C) / divisor (n + 1)) := by
  have hs : (0 : ℝ) < scale := by exact_mod_cast h.scale_pos
  have hd := h.divisor_pos n
  have hρ := h.ratio_nonneg
  have ht : (0 : ℝ) ≤ t := Nat.cast_nonneg t
  have hprod : 0 < scale * divisor (n + 1) :=
    Nat.mul_pos h.scale_pos (by exact_mod_cast hd)
  rw [Nat.div_div_eq_div_mul, h.step]
  -- the truncated term in units of `1 / (scale * divisor)`
  have hle : ((t * ratio / (scale * divisor (n + 1)) : ℕ) : ℝ) * (scale * divisor (n + 1)) ≤
      t * ratio := by
    exact_mod_cast Nat.div_mul_le_self _ _
  have hlt : (t : ℝ) * ratio ≤
      scale * divisor (n + 1) * ((t * ratio / (scale * divisor (n + 1)) : ℕ) + 1) := by
    exact_mod_cast (Nat.lt_mul_div_succ (t * ratio) hprod).le
  generalize ((t * ratio / (scale * divisor (n + 1)) : ℕ) : ℝ) = next at hle hlt
  generalize (divisor (n + 1) : ℝ) = d at *
  constructor
  · rw [le_div_iff₀ hd]
    refine le_of_mul_le_mul_right ?_ hs
    calc next * d * scale = next * (scale * d) := by ring
      _ ≤ t * ratio := hle
      _ ≤ a n * (ρ * scale) := mul_le_mul hlow h.low (Nat.cast_nonneg _) (h.nonneg n)
      _ = a n * ρ * scale := by ring
  · rw [div_le_iff₀ hd]
    refine le_of_mul_le_mul_right ?_ hs
    have hoff : (a n - t) * (ρ * scale) ≤ e * (ρ * scale) :=
      mul_le_mul_of_nonneg_right (by linarith) (mul_nonneg hρ hs.le)
    have hterm : t * (ρ * scale) ≤ t * (ratio + 1) := mul_le_mul_of_nonneg_left h.high ht
    calc a n * ρ * scale = (a n - t) * (ρ * scale) + t * (ρ * scale) := by ring
      _ ≤ e * (ρ * scale) + (scale * d * (next + 1) + C * scale) := by linarith
      _ = (next + (1 + (ρ * e + C) / d)) * d * scale := by
        field_simp
        ring

/-- The truncated terms after `a n` follow the exact ones, with errors that grow from each to the
next by no less than a step costs. -/
theorem follows (h : IsFactorialSeries ratio scale divisor ρ a) (hC : ∀ n, a n ≤ C * scale)
    (hε : ∀ n, 1 + (ρ * ε n + C) / divisor (n + 1) ≤ ε (n + 1)) (hlow : t ≤ a n)
    (hhigh : a n ≤ t + ε n) :
    Follows a ε (n + 1) (factorialTerms ratio scale divisor h.grows (n + 1) t) := by
  suffices hmain : ∀ m t : ℕ, (∃ n, m = n + 1 ∧ (t : ℝ) ≤ a n ∧ a n ≤ t + ε n) →
      Follows a ε m (factorialTerms ratio scale divisor h.grows m t) from
    hmain _ _ ⟨n, rfl, hlow, hhigh⟩
  intro m t
  induction m, t using factorialTerms.induct ratio scale divisor h.grows with
  | case1 m t next last =>
    rintro ⟨n, rfl, hlow, hhigh⟩
    have hstep := h.truncated_step (hC n) hlow hhigh
    rw [show t * ratio / scale / divisor (n + 1) = 0 from last, Nat.cast_zero, zero_add] at hstep
    rw [factorialTerms, dif_pos last]
    exact .ends hstep.1 (hstep.2.trans (hε n))
  | case2 m t next last ih =>
    rintro ⟨n, rfl, hlow, hhigh⟩
    have hstep := h.truncated_step (hC n) hlow hhigh
    have hnext : a (n + 1) ≤ next + ε (n + 1) := by linarith [hε n, hstep.2]
    rw [factorialTerms, dif_neg last]
    exact .term (Nat.pos_of_ne_zero last) hstep.1 hnext (ih ⟨n + 1, rfl, hstep.1, hnext⟩)

end IsFactorialSeries

end DeskCalculator.FixedPoint
