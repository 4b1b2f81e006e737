import DeskCalculator.Proofs.Evaluation
import DeskCalculator.Proofs.LogarithmOfTen
import DeskCalculator.Proofs.RunningFunctions

/-!
# Evaluation in a running program

An evaluation goes through the functions of its tree one after another, each of which follows the
function that is computed afresh. So the evaluation follows the one that begins with nothing kept,
and up to 2.8 · 10⁹ digits it comes to an outcome. Near 2³² digits it may not: an exponential divides
by a logarithm of ten of which no digit is left.
-/

set_option autoImplicit false

namespace DeskCalculator

open DeskCalculator.Natural DeskCalculator.FixedPoint DeskCalculator.FixedPoint.Constants
open Decimal

variable {x y z : Decimal} {c : Context} {limit : ℕ} {keeps : Constants → Prop}

/-! ### Operations and functions -/

theorem natAbs_piDigits_le {known : Constants} (hknown : known.Sound) {digits : ℕ}
    (hdigits : digits + extraDigits < UInt32.size) :
    (known.piDigits digits).natAbs ≤ tens (digits + 4096) := by
  have hnear := abs_le.mp (abs_piDigits_sub_le hknown.pi hknown.counted_pi hdigits)
  have hnonneg := piDigits_nonneg hknown.pi digits
  have hone : (1 : ℝ) ≤ 10 ^ digits := one_le_pow₀ (by norm_num)
  have hfour := mul_le_mul_of_nonneg_right Real.pi_le_four (zero_le_one.trans hone)
  have hreal : (known.piDigits digits : ℝ) ≤ ((tens (digits + 2) : ℕ) : ℝ) := by
    rw [cast_tens, pow_add]
    linarith
  have hle : known.piDigits digits ≤ (tens (digits + 2) : ℕ) := by exact_mod_cast hreal
  have hmore := tens_le_tens (show digits + 2 ≤ digits + 4096 by omega)
  omega

theorem Context.mostAsked_le_widen (c : Context) (n : ℕ) :
    c.mostAsked ≤ (c.widen n).mostAsked := by
  rw [mostAsked, mostAsked, digits_widen]
  omega

theorem reaches_ofInt_ten : (ofInt 10).Reaches := .inl (by decide +kernel)

section
variable (hkeeps : Serves limit keeps)
include hkeeps

theorem BinaryOp.follows_apply (op : BinaryOp) (hx : x.Reaches) (hlimit : c.mostAsked ≤ limit) :
    Running.Follows keeps (AnswersAs limit keeps c.known) Reaches (op.applyRunning x y c)
      (op.apply x y c) := by
  cases op with
  | pow => exact (follows_pow hkeeps hx hlimit).mono fun _ => Kept.reaches
  | add | sub | mul | div | mod =>
    exact Running.follows_ofOutcome fun z hz => (BinaryOp.kept_apply hz).reaches

theorem Constant.follows_value (k : Constant) (hlimit : c.mostAsked ≤ limit) :
    Running.Follows keeps (AnswersAs limit keeps c.known) Reaches (k.valueRunning c)
      (.ok (k.value c)) := by
  have hroom := hkeeps.room
  have hask := piAsk_bounds hlimit
  have hw : ((c.digits + guardDigits : ℕ) : ℤ) ≤ maxAdjusted := by
    have hle : c.digits + guardDigits ≤ limit := hask.2
    have hsize : UInt32.size = 4294967296 := rfl
    have hmax : maxAdjusted = 9000000000000000 := rfl
    omega
  cases k with
  | pi =>
    rw [Constant.valueRunning]
    refine Running.follows_asking hkeeps ?_ ?_ fun hexact known hknown => ?_
    · rintro a ⟨⟩
      exact hask
    · rintro known hknown _ ⟨⟩
      have hdigits : c.digits + guardDigits + extraDigits < UInt32.size :=
        lt_of_le_of_lt (Nat.add_le_add_right hask.2 _) hroom
      exact (reaches_ofScaled hw (natAbs_piDigits_le (hkeeps.sound hknown) hdigits)).round c.positive
    · rw [pi_knowing (hexact known hknown _ hask.2)]
      rfl
  | e => exact Running.follows_pure ((reaches_ofScaled hw (natAbs_exp_one_le _)).round c.positive)

namespace NamedFunction

theorem follows_compute (f : NamedFunction) {others : List Decimal} {unit : AngleUnit}
    (hx : x.Reaches) (hlimit : c.mostAsked ≤ limit) :
    Running.Follows keeps (AnswersAs limit keeps c.known) Reaches
      (f.computeRunning x others unit c) (f.compute x others unit c) := by
  have hsettled : ∀ z : Decimal, Settled c z → z.Reaches := fun _ h => .inl h.inRange
  have hasked : c.digits + 27 ≤ limit := by
    rw [Context.mostAsked] at hlimit
    omega
  have hpure (f : NamedFunction) (hf : f ≠ .abs) :
      Running.Follows keeps (AnswersAs limit keeps c.known) Reaches
        (Running.ofOutcome (f.compute x others unit c)) (f.compute x others unit c) :=
    Running.follows_ofOutcome fun z hz => (kept_compute hf hz).reaches
  cases f with
  | inv | sqrt | cbrt | square | cube | fact => exact hpure _ (by decide)
  | sin =>
    rw [compute, orOutOfRange_bind]
    exact ((follows_toRadians hkeeps hlimit x).bind fun a _ =>
      follows_sin hkeeps hlimit a).mono hsettled
  | cos =>
    rw [compute, orOutOfRange_bind]
    exact ((follows_toRadians hkeeps hlimit x).bind fun a _ =>
      follows_cos hkeeps hlimit a).mono hsettled
  | tan =>
    rw [compute, orOutOfRange_bind]
    exact ((follows_toRadians hkeeps hlimit x).bind fun a _ =>
      follows_tan hkeeps hlimit a).mono hsettled
  | asin =>
    rw [compute, orOutOfRange_bind]
    exact ((follows_asin hkeeps hlimit x).bind fun a ha =>
      follows_ofRadians hkeeps hlimit ha).mono hsettled
  | acos =>
    rw [compute, orOutOfRange_bind]
    exact ((follows_acos hkeeps hlimit x).bind fun a ha =>
      follows_ofRadians hkeeps hlimit ha).mono hsettled
  | atan =>
    rw [compute, orOutOfRange_bind]
    exact ((follows_atan hkeeps hlimit x).bind fun a ha =>
      follows_ofRadians hkeeps hlimit ha).mono hsettled
  | ln =>
    unfold computeRunning compute
    simp only
    split
    · exact Running.follows_throw _
    · exact (follows_ln hkeeps hx (by omega)).mono hsettled
  | log =>
    unfold computeRunning compute
    simp only
    split
    · exact Running.follows_throw _
    · exact (follows_log10 hkeeps hx (by omega)).mono hsettled
  | exp => exact (follows_exp hkeeps x hasked).mono hsettled
  | tenpow => exact (follows_pow hkeeps reaches_ofInt_ten hlimit).mono fun _ => Kept.reaches
  | pow =>
    exact (Running.follows_ofOutcome fun _ _ => trivial).bind fun y (_ : True) =>
      (follows_pow hkeeps hx hlimit).mono fun _ => Kept.reaches
  | root =>
    exact (Running.follows_ofOutcome fun _ _ => trivial).bind fun n (_ : True) =>
      (follows_rootOfOrder hkeeps hx hlimit).mono fun _ => Kept.reaches
  | abs =>
    refine Running.follows_ofOutcome ?_
    rintro _ ⟨⟩
    exact hx.abs

theorem follows_apply (f : NamedFunction) {others : List Decimal} {unit : AngleUnit}
    (hx : x.Reaches) (hlimit : (c.widen guardDigits).mostAsked ≤ limit) :
    Running.Follows keeps (AnswersAs limit keeps c.known) Reaches
      (f.applyRunning x others unit c) (f.apply x others unit c) :=
  (f.follows_compute hkeeps hx hlimit).map fun _ hz => hz.round c.positive

end NamedFunction

end

/-! ### Trees and texts -/

namespace Expr

variable {unit : AngleUnit}

mutual

theorem follows_eval (hkeeps : Serves limit keeps)
    (hlimit : (c.widen NamedFunction.guardDigits).mostAsked ≤ limit) :
    ∀ a : Expr, Running.Follows keeps (AnswersAs limit keeps c.known) Reaches
      (a.evalRunning unit c) (a.eval unit c)
  | .literal text => by
    rw [evalRunning, eval]
    cases hread : Decimal.read? text with
    | none => exact Running.follows_throw _
    | some x => exact Running.follows_pure (.inl (inRange_of_read hread))
  | .constant k => by
    rw [evalRunning, eval]
    exact k.follows_value hkeeps ((c.mostAsked_le_widen _).trans hlimit)
  | .signed op a => by
    rw [evalRunning, eval]
    refine (a.follows_eval hkeeps hlimit).map fun x hx => ?_
    cases op with
    | plus => exact hx
    | minus => exact hx.neg
  | .binary op a b => by
    rw [evalRunning, eval]
    refine (a.follows_eval hkeeps hlimit).bind fun x hx => ?_
    refine (b.follows_eval hkeeps hlimit).bind fun y _ => ?_
    exact op.follows_apply hkeeps hx ((c.mostAsked_le_widen _).trans hlimit)
  | .call name args => by
    rw [evalRunning, eval]
    cases NamedFunction.ofName? name with
    | none => exact Running.follows_throw _
    | some f =>
      refine (follows_evalAll hkeeps hlimit args).bind fun xs hxs => ?_
      cases xs with
      | nil => exact Running.follows_throw _
      | cons x others => exact f.follows_apply hkeeps (hxs x List.mem_cons_self) hlimit

theorem follows_evalAll (hkeeps : Serves limit keeps)
    (hlimit : (c.widen NamedFunction.guardDigits).mostAsked ≤ limit) :
    ∀ args : List Expr, Running.Follows keeps (AnswersAs limit keeps c.known)
      (fun xs => ∀ x ∈ xs, x.Reaches) (evalAllRunning unit c args) (evalAll unit c args)
  | [] => by
    rw [evalAllRunning, evalAll]
    exact Running.follows_pure fun x hx => nomatch hx
  | a :: rest => by
    rw [evalAllRunning, evalAll]
    refine (a.follows_eval hkeeps hlimit).bind fun x hx => ?_
    refine (follows_evalAll hkeeps hlimit rest).map fun xs hxs => ?_
    exact List.forall_mem_cons.mpr ⟨hx, hxs⟩

end

end Expr

namespace Preferences

variable {p : Preferences}

def mostAsked (p : Preferences) : ℕ := (p.context.widen NamedFunction.guardDigits).mostAsked

theorem follows_evaluate (hkeeps : Serves limit keeps) (hlimit : p.mostAsked ≤ limit)
    (tree : Expr) : Running.Follows keeps (AnswersAs limit keeps {}) Reaches
      (p.evaluateRunning tree) (p.evaluate tree) :=
  (tree.follows_eval hkeeps hlimit).map fun _ hx => hx.round p.context.positive

theorem follows_evaluateText (hkeeps : Serves limit keeps) (hlimit : p.mostAsked ≤ limit)
    (t : Text) : Running.Follows keeps (AnswersAs limit keeps {}) Reaches
      (p.evaluateTextRunning t) (p.evaluateText t) := by
  unfold evaluateTextRunning evaluateText
  split
  · exact Running.follows_pure (.inl (.inl rfl))
  · refine (Running.follows_ofOutcome fun _ _ => trivial).bind fun tree (_ : True) => ?_
    exact follows_evaluate hkeeps hlimit tree

end Preferences

/-! ### Failures of a running evaluation -/

def Computing {α : Type} (m : Running α) : Prop :=
  ∀ known r kept, m.run known = some (r, kept) → Computes r

section
variable {α β : Type} {m : Running α} {f : α → Running β}

theorem computing_ofOutcome {r : Except CalcError α} (h : Computes r) :
    Computing (Running.ofOutcome r) := by
  rintro known _ _ ⟨⟩
  exact h

theorem computing_asking {asked : Option Ask} {outcome : Constants → Except CalcError α}
    (h : ∀ known, Computes (outcome known)) : Computing (Running.asking asked outcome) := by
  intro known r kept hr
  rw [Running.run_asking_cases hr]
  exact h kept

theorem computing_within {asked : Option Ask} (outcome : Constants → Option α) :
    Computing (Running.asking asked fun known => orOutOfRange (outcome known)) :=
  computing_asking fun known => computes_orOutOfRange (outcome known)

theorem computing_breakOff : Computing (Running.breakOff : Running α) := by
  rintro known _ _ ⟨⟩

theorem computing_ite {p : Prop} [Decidable p] {m' : Running α} (h : Computing m)
    (h' : Computing m') : Computing (if p then m else m') := by
  split
  · exact h
  · exact h'

theorem Computing.bind (h : Computing m) (hf : ∀ a, Computing (f a)) : Computing (m >>= f) := by
  intro known r kept hr
  obtain ⟨a, between, -, hfa⟩ | ⟨e, hm, rfl⟩ := Running.run_bind_cases hr
  · exact hf a _ _ _ hfa
  · rintro _ ⟨⟩
    exact h _ _ _ hm e rfl

end

theorem Decimal.computing_powRunning : Computing (x.powRunning y c) := by
  have hwithin (o : Option Decimal) : Computing (Running.within o) :=
    computing_ofOutcome (computes_orOutOfRange o)
  have hpure (z : Decimal) : Computing (pure z : Running Decimal) :=
    computing_ofOutcome (computes_ok z)
  have hpower (t : Decimal) : Computing (do
      let power ← t.expRunning (c.widen guardDigits)
      return power.round c.digits) := (computing_within _).bind fun power => hpure _
  refine computing_ite (Computing.bind ?_ fun _ => hpure _) (hwithin _)
  refine (computing_within _).bind fun _ => (hwithin _).bind fun rough => ?_
  refine computing_ite (computing_within _) ?_
  refine computing_ite ((computing_within _).bind fun _ => (hwithin _).bind hpower) (hpower rough)

theorem NamedFunction.computing_apply (f : NamedFunction) (x : Decimal) (others : List Decimal)
    (unit : AngleUnit) (c : Context) : Computing (f.applyRunning x others unit c) := by
  have hpure (z : Decimal) : Computing (pure z : Running Decimal) :=
    computing_ofOutcome (computes_ok z)
  have herror {e : CalcError} (he : e.kind = .domain ∨ e.kind = .range) :
      Computing (throw e : Running Decimal) := computing_ofOutcome (computes_error he)
  refine Computing.bind ?_ fun z => hpure _
  generalize c.widen guardDigits = c
  have hwithin (o : Option Decimal) : Computing (Running.within o) :=
    computing_ofOutcome (computes_orOutOfRange o)
  cases f with
  | sin | cos | tan | atan => exact (computing_within _).bind fun _ => computing_within _
  | asin | acos =>
    refine Computing.bind (computing_ite (hwithin _) ?_) fun _ => computing_within _
    exact computing_ite (computing_within _) computing_breakOff
  | ln | log => exact computing_ite (herror (.inl rfl)) (computing_within _)
  | exp => exact computing_within _
  | tenpow => exact computing_powRunning
  | pow =>
    exact (computing_ofOutcome (computes_second _ _)).bind fun _ => computing_powRunning
  | root =>
    refine (computing_ofOutcome (computes_second _ _)).bind fun n => computing_ite ?_ ?_
    · exact (hwithin _).bind fun _ => computing_powRunning
    · exact computing_ofOutcome (x.computes_rootOfOrder n c)
  | abs | inv | sqrt | cbrt | square | cube | fact =>
    exact computing_ofOutcome (computes_compute _ x others unit c)

namespace Expr

theorem ne_nil_of_evalAllRunning {unit : AngleUnit} {args : List Expr} (hne : args ≠ [])
    {xs : List Decimal} {known kept : Constants}
    (h : (evalAllRunning unit c args).run known = some (.ok xs, kept)) : xs ≠ [] := by
  cases args with
  | nil => exact absurd rfl hne
  | cons a rest =>
    rw [evalAllRunning] at h
    obtain ⟨x, between, -, h⟩ | ⟨e, -, h⟩ := Running.run_bind_cases h
    · obtain ⟨ys, later, -, h⟩ | ⟨e, -, h⟩ := Running.run_bind_cases h
      · cases h
        exact List.cons_ne_nil x ys
      · cases h
    · cases h

theorem computing_evalAll {unit : AngleUnit} {args : List Expr}
    (h : ∀ a ∈ args, Computing (a.evalRunning unit c)) : Computing (evalAllRunning unit c args) := by
  induction args with
  | nil =>
    rw [evalAllRunning]
    exact computing_ofOutcome (computes_ok _)
  | cons a rest ih =>
    rw [evalAllRunning]
    refine (h a List.mem_cons_self).bind fun x => ?_
    exact (ih fun b hb => h b (List.mem_cons_of_mem a hb)).bind fun xs =>
      computing_ofOutcome (computes_ok _)

theorem BuiltFrom.computing_eval {ts : List Token} (hts : Readable ts) {a : Expr}
    (h : BuiltFrom ts a) (unit : AngleUnit) (c : Context) : Computing (a.evalRunning unit c) := by
  induction h with
  | literal ht =>
    obtain ⟨x, hx⟩ := hts _ ht
    rw [evalRunning, hx]
    exact computing_ofOutcome (computes_ok x)
  | constant k =>
    rw [evalRunning]
    cases k with
    | pi =>
      rw [Constant.valueRunning]
      exact computing_asking fun known => computes_ok _
    | e => exact computing_ofOutcome (computes_ok _)
  | signed op _ ih =>
    rw [evalRunning]
    exact ih.bind fun x => computing_ofOutcome (computes_ok _)
  | binary op _ _ iha ihb =>
    rw [evalRunning]
    refine iha.bind fun x => ihb.bind fun y => ?_
    cases op with
    | pow => exact computing_powRunning
    | add | sub | mul | div | mod => exact computing_ofOutcome (BinaryOp.computes_apply _ x y c)
  | call _ hne _ ih =>
    rw [evalRunning]
    split
    · exact computing_ofOutcome (computes_error (Or.inl rfl))
    · next f _ =>
      intro known r kept hr
      obtain ⟨xs, between, hxs, hr⟩ | ⟨e, he, rfl⟩ := Running.run_bind_cases hr
      · cases xs with
        | nil => exact absurd rfl (ne_nil_of_evalAllRunning hne hxs)
        | cons x others => exact f.computing_apply x others unit c between r kept hr
      · rintro _ ⟨⟩
        exact computing_evalAll ih known _ kept he e rfl

end Expr

namespace Preferences

variable (p : Preferences)

theorem computing_evaluate {t : Text} (hl : (t.length : ℤ) < maxAdjusted) {a : Expr}
    (h : Expr.read t = .ok a) : Computing (p.evaluateRunning a) := by
  obtain ⟨ts, hts, hb⟩ := Expr.builtFrom_of_read h
  have hreadable : Expr.Readable ts := Expr.readable_of_wellFormed fun token ht =>
    ⟨(hts token ht).1, by have hlength := (hts token ht).2; omega⟩
  exact (hb.computing_eval hreadable _ _).bind fun x => computing_ofOutcome (computes_ok _)

theorem evaluateTextRunning_eq {t : Text} (h : t.trim ≠ []) :
    p.evaluateTextRunning t = Running.ofOutcome (Expr.read t) >>= p.evaluateRunning := by
  rw [evaluateTextRunning, if_neg (by simpa using h), Expr.read_trim]

theorem mostAsked_le {n : ℕ} (h : p.precision.toNat ≤ n) (hn : 28 ≤ n) :
    p.mostAsked ≤ n + 5 + (n + 5) / 2 + 2050 := by
  have hprecision : (max p.precision minPrecision).toNat ≤ n := by
    rw [UInt32.toNat_max]
    exact max_le h hn
  have hdigits : p.context.digits ≤ n := max_le hprecision (by omega)
  have hguard : NamedFunction.guardDigits = 5 := rfl
  rw [mostAsked, Context.mostAsked, digits_widen]
  omega

theorem mostAsked_add_lt (h : p.precision ≤ 2800000000) :
    p.mostAsked + extraDigits < UInt32.size := by
  have hmost := p.mostAsked_le (UInt32.le_iff_toNat_le.mp h) (by decide)
  have hprecision : (2800000000 : UInt32).toNat = 2800000000 := rfl
  have hextra : extraDigits = 10 := rfl
  have hsize : UInt32.size = 4294967296 := rfl
  omega

end Preferences

/-! ### Validation and evaluation -/

namespace Expr

/-- Where the program comes to an outcome, a text that is accepted has a value or fails in the
computation, and one that is not blank and refused fails with the same error: the numbers of a
text can be read, and no call lacks an argument. Up to 2.8 · 10⁹ digits the program does come to
an outcome, whatever it has computed of the constants before. -/
theorem evaluateText_of_validate (p : Preferences) {t : Text}
    (hl : (t.length : ℤ) < maxAdjusted) :
    (validate t = .ok () → ∀ known outcome kept,
      (p.evaluateTextRunning t).run known = some (outcome, kept) →
        (∃ x, outcome = .ok x) ∨ ∃ e, outcome = .error e ∧ (e.kind = .domain ∨ e.kind = .range)) ∧
    (t.trim ≠ [] → ∀ e, validate t = .error e →
      ∀ known, (p.evaluateTextRunning t).run known = some (.error e, known)) ∧
    (∀ ts, Token.readAll t = .ok ts →
      ∀ text, .number text ∈ ts → ∃ x, Decimal.read? text = some x) ∧
    (∀ ts a, ofTokens ts = .ok a → a.callsApplied = true) ∧
    (p.precision ≤ 2800000000 → t.length < UInt32.size → ∀ known : Constants, known.Sound →
      ∃ outcome kept, (p.evaluateTextRunning t).run known = some (outcome, kept) ∧ kept.Sound) := by
  refine ⟨fun hv known outcome kept hrun => ?_, fun hne e hv known => ?_,
    fun ts h => readable_of_readAll hl h, fun ts a => callsApplied_of_ofTokens,
    fun hprecision _ known hknown => ?_⟩
  · have hne : t.trim ≠ [] := fun h => by
      rw [validate, if_pos (by simp [h])] at hv
      cases hv
    rw [validate_eq hne] at hv
    obtain ⟨a, ha, -⟩ := map_eq_ok.mp hv
    rw [p.evaluateTextRunning_eq hne, ha] at hrun
    have hcomputes := p.computing_evaluate hl ha known outcome kept hrun
    cases outcome with
    | ok x => exact .inl ⟨x, rfl⟩
    | error e => exact .inr ⟨e, rfl, hcomputes e rfl⟩
  · rw [validate_eq hne] at hv
    rw [p.evaluateTextRunning_eq hne, map_eq_error.mp hv]
    rfl
  · have hserves := serves_sound (p.mostAsked_add_lt hprecision)
    obtain ⟨outcome, kept, hrun, hkept, -⟩ :=
      p.follows_evaluateText hserves le_rfl t known hknown
    exact ⟨outcome, kept, hrun, hkept⟩

theorem evaluateText_of_validate_unclosed :
    validate "2*sin(".toList = .error .unexpectedEnd ∧
      (({} : Preferences).evaluateTextRunning "2*sin(".toList).run {} =
        some (.error .unexpectedEnd, {}) := by
  have hv : validate "2*sin(".toList = .error .unexpectedEnd := by cbv
  exact ⟨hv, (evaluateText_of_validate {} (by decide)).2.1 (by decide) _ hv {}⟩

theorem read_zero_times_exp : read "0*exp(40000000000)".toList = .ok (.binary .mul
    (.literal ['0']) (.call "exp".toList [.literal "40000000000".toList])) := by cbv

theorem validate_zero_times_exp : validate "0*exp(40000000000)".toList = .ok () := by
  rw [validate_eq (by decide), read_zero_times_exp]
  rfl

/-- The exponential asks for more digits of the logarithm of ten than 32 bits count, gets zero,
and divides by it. -/
theorem run_zero_times_exp :
    (({ precision := 4294967265 } : Preferences).evaluateTextRunning
      "0*exp(40000000000)".toList).run {} = none := by
  generalize hp : ({ precision := 4294967265 } : Preferences) = p
  have hne : Text.trim "0*exp(40000000000)".toList ≠ [] := by decide
  have hzero : ((Expr.literal ['0']).evalRunning p.angleUnit p.context).run {} =
      some (.ok Decimal.zero, {}) := by
    have hnumeral : Decimal.read? ['0'] = some Decimal.zero := by decide +kernel
    rw [evalRunning, hnumeral]
    rfl
  have harguments : (evalAllRunning p.angleUnit p.context
      [.literal "40000000000".toList]).run {} = some (.ok [⟨4, 10, .inr (by decide)⟩], {}) := by
    have hnumeral : Decimal.read? "40000000000".toList = some ⟨4, 10, .inr (by decide)⟩ := by
      decide +kernel
    simp only [evalAllRunning, evalRunning, hnumeral]
    rfl
  have hasked : expAsk? ⟨4, 10, .inr (by decide)⟩ (p.context.widen NamedFunction.guardDigits) =
      some { constant := .ln10, digits := 4294967291, divides := true } := by
    subst hp
    decide +kernel
  have hbreaks : ((⟨4, 10, .inr (by decide)⟩ : Decimal).expRunning
      (p.context.widen NamedFunction.guardDigits)).run {} = none := by
    unfold expRunning
    rw [hasked]
    refine if_pos ⟨rfl, ?_⟩
    rw [Constants.answer_after]
    show computeLn10 4294967291 = 0
    exact computeLn10_eq_zero (by decide)
  have hname : NamedFunction.ofName? "exp".toList = some .exp := by decide
  rw [p.evaluateTextRunning_eq hne, read_zero_times_exp]
  show (p.evaluateRunning _).run {} = none
  refine Running.run_bind_eq_none ?_
  rw [evalRunning, Running.run_bind_ok hzero]
  refine Running.run_bind_eq_none ?_
  rw [evalRunning, hname, Running.run_bind_ok harguments]
  exact Running.run_bind_eq_none hbreaks

theorem evaluateText_breaks_off :
    validate "0*exp(40000000000)".toList = .ok () ∧
      (({ precision := 4294967265 } : Preferences).evaluateTextRunning
        "0*exp(40000000000)".toList).run {} = none :=
  ⟨validate_zero_times_exp, run_zero_times_exp⟩

end Expr

end DeskCalculator
