import DeskCalculator.Proofs.Display
import DeskCalculator.Proofs.ExactCuts
import DeskCalculator.Proofs.MachineRun

/-!
# Replaying the history of a session

Items of the history are never changed, and as long as the clock leaves words for them, a stamp
tells an item from the others. So under the preferences of the step that put it in, an item that is
put back and evaluated again shows what it showed then, if the digits that the program keeps of the
constants still give its expression the same value. They do where the digits that are cut off a
longer value are those that are computed, which is so up to a few thousand digits. Where 32 bits do
not count the digits asked for, zero is kept, and an item need not replay.
-/

set_option autoImplicit false

namespace DeskCalculator

open DeskCalculator.FixedPoint DeskCalculator.FixedPoint.Constants

namespace FixedPoint.Constants

variable {limit digits : ℕ}

theorem request_eq_compute {compute : ℕ → ℤ} {kept : Option Longest} (hcuts : Cuts compute limit)
    (hcomputed : Computed compute kept) (h : ∀ longest ∈ kept, longest.digits ≤ limit) :
    (request compute kept digits).1 = compute digits := by
  rcases request_eq compute kept digits with ⟨longest, hmem, hle, heq⟩ | heq <;> rw [heq]
  have hcut := hcuts digits (longest.digits - digits)
    ((Nat.add_sub_of_le hle).trans_le (h longest hmem))
  rwa [Nat.add_sub_of_le hle, ← hcomputed longest hmem] at hcut

theorem answersAs_of_cuts (hpi : Cuts computePi limit) (hln10 : Cuts computeLn10 limit) :
    AnswersAs limit (KeptUpTo limit) {} := by
  intro known h asked _
  obtain ⟨constant, digits, divides⟩ := asked
  cases constant with
  | pi => exact request_eq_compute hpi h.sound.pi h.pi
  | ln10 => exact request_eq_compute hln10 h.sound.ln10 h.ln10

end FixedPoint.Constants

namespace Machine

open Session

variable {s s' : Machine} {steps : List (UInt64 × Action)} {item : HistoryItem}

/-! ### Replaying an item -/

/-- Put back and evaluated again, the item shows what it showed, and one like it is the newest. -/
def Replays (s : Machine) (item : HistoryItem) (now now' : UInt64) : Prop :=
  ∃ restored after, s.act now (.restore item.stamp) = some (some true, restored) ∧
    restored.act now' (.press .equals) = some (none, after) ∧
    after.session.result = item.result ∧ after.session.notice = none ∧
    after.session.history.items.head? =
      some ⟨item.expression, item.result, s.session.history.nextStamp now'⟩

/-- The machine with the expression of an item in place of the text. -/
def withText (s : Machine) (t : Text) : Machine :=
  ⟨{ s.session with buffer := s.session.buffer.setText t, notice := none }, s.kept⟩

theorem act_restore (ho : s.session.history.Ordered) {item : HistoryItem}
    (hitem : item ∈ s.session.history.items) (now : UInt64) :
    s.act now (.restore item.stamp) = some (some true, s.withText item.expression) := by
  have hrestore : s.session.restore item.stamp = (true, (s.withText item.expression).session) := by
    rw [restore, ho.find?_eq_some_iff.mpr ⟨hitem, rfl⟩]
    rfl
  have hact : s.session.act now (.restore item.stamp) =
      (some true, (s.withText item.expression).session) := by
    rw [Session.act, hrestore]
  rw [act_of_no_needs rfl, Session.act?_eq_some_iff.mpr ⟨hact, by rintro ⟨⟩⟩]
  rfl

theorem replays_iff (hs : s.Capped) (hitem : item ∈ s.session.history.items)
    (htrim : item.expression.trim = item.expression)
    (hvalid : Expr.validate item.expression = .ok ()) (now now' : UInt64) :
    s.Replays item now now' ↔ s.session.history.HasNext ∧
      ∃ y kept, (s.session.preferences.evaluateTextRunning item.expression).run s.kept =
        some (.ok y, kept) ∧ y.short Decimal.displayDigits = item.result := by
  have htext : (s.withText item.expression).session.buffer.text.trim = item.expression := htrim
  have hne : item.expression ≠ [] := htrim ▸ Expr.trim_ne_nil_of_validate hvalid
  have hrestore := act_restore hs.ordered hitem now
  constructor
  · rintro ⟨restored, after, hrestored, hafter, hresult, hnotice, -⟩
    obtain rfl : s.withText item.expression = restored := by
      rw [hrestore] at hrestored
      exact (Prod.mk.inj (Option.some.inj hrestored)).2
    rw [act_of_expression (needs_equals htext hvalid)] at hafter
    obtain ⟨⟨outcome, kept⟩, hrun, hafter⟩ := Option.bind_eq_some_iff.mp hafter
    obtain ⟨⟨ret, session⟩, hact, hafter⟩ := Option.map_eq_some_iff.mp hafter
    cases hafter
    obtain ⟨hact, hnext⟩ := Session.act?_eq_some_iff.mp hact
    have hsession := (Prod.mk.inj hact).2
    have hcalculate := calculate_of_valid htext hvalid outcome
    cases outcome with
    | error e =>
      have herror : session.notice = some (.calculation e) := by
        rw [← hsession]
        exact notice_of_error (by rwa [htext]) hcalculate now'
      cases herror.symm.trans hnotice
    | ok y =>
      have hshown : session.result = y.short Decimal.displayDigits := by
        rw [← hsession, press, evaluate_of_calculate hcalculate]
      refine ⟨hnext ?_, y, kept, hrun, hshown.symm.trans hresult⟩
      rw [records, hcalculate]
      rfl
  · rintro ⟨hnext, y, kept, hrun, hshown⟩
    refine ⟨_, _, hrestore, act_equals_of_value htext hvalid hrun hnext now', hshown, rfl, ?_⟩
    rw [← hshown]
    exact History.head?_add hs.ordered.max_pos now' item.expression _

/-- Up to a few thousand digits what is kept makes no difference to a value. -/
theorem exists_run_eq {p : Preferences} (hp : p.mostAsked ≤ 3560) (t : Text) {known : Constants}
    (h : KeptUpTo 3560 known) : ∃ kept, KeptUpTo 3560 kept ∧
      (p.evaluateTextRunning t).run known = some (p.evaluateText t, kept) := by
  obtain ⟨r, kept, hrun, hkept, -, hexact⟩ :=
    p.follows_evaluateText (serves_keptUpTo (by decide)) hp t known h
  obtain rfl := hexact (answersAs_of_cuts cuts_computePi cuts_computeLn10)
  exact ⟨kept, hkept, hrun⟩

theorem replays_of_precision {p : Preferences} (h : (start p).run steps = some s)
    (hprecision : ∀ k earlier, (start p).run (steps.take k) = some earlier →
      earlier.session.preferences.precision ≤ 1000)
    {k : ℕ} {before : Machine} {x : Decimal} (hentered : Entered (start p) steps item k before x)
    (hitem : item ∈ s.session.history.items)
    (hpreferences : s.session.preferences = before.session.preferences)
    (hnext : s.session.history.HasNext) (now now' : UInt64) : s.Replays item now now' := by
  obtain ⟨hk, after, hbefore, hafter, henters⟩ := hentered
  have hroom : 3560 + extraDigits < UInt32.size := by decide
  have hneeds : NeedsUpTo (start p) steps 3560 := fun k earlier hrun =>
    (earlier.session.preferences.mostAsked_le (n := 1000)
      (UInt32.le_iff_toNat_le.mp (hprecision k earlier hrun)) (by decide)).trans (by decide)
  -- the item's value and the one to come are both the value without anything kept before
  have hthen := keptUpTo_run hroom (fun j earlier hrun => hneeds (min j k) earlier
    (by rwa [List.take_take] at hrun)) hbefore
  have hnow := keptUpTo_run hroom hneeds h
  obtain ⟨kept, -, hrun⟩ := exists_run_eq (hneeds k before hbefore) item.expression hthen
  obtain ⟨kept', -, hrun'⟩ := exists_run_eq (hneeds k before hbefore) item.expression hnow
  rw [(Prod.mk.inj (Option.some.inj (hrun.symm.trans henters.value))).1] at hrun'
  refine (replays_iff (capped_run h) hitem henters.trimmed henters.valid now now').mpr
    ⟨hnext, x, kept', ?_, henters.shown.symm⟩
  rwa [hpreferences]

/-! ### Two evaluations -/

/-- One text is typed and evaluated, and then another one. -/
def evaluations (t t' : Text) : List (UInt64 × Action) :=
  [(1, .press (.insert t)), (2, .press .equals), (3, .press .clear), (4, .press (.insert t')),
    (5, .press .equals)]

theorem equals_cases (session : Session) (now : UInt64) (value : Text → Except CalcError Decimal) :
    (session.press now .equals value).preferences = session.preferences ∧
      ((session.press now .equals value).history = session.history ∨ ∃ expression result,
        (session.press now .equals value).history = session.history.add now expression result) := by
  unfold press evaluate
  simp only
  split
  · exact ⟨rfl, .inl rfl⟩
  · split
    · exact ⟨rfl, .inl rfl⟩
    · exact ⟨rfl, .inr ⟨_, _, rfl⟩⟩

theorem exists_run_evaluations {p : Preferences} {t t' : Text} {x : Decimal}
    {outcome : Except CalcError Decimal} {between kept : Constants}
    (htrim : t.trim = t) (hvalid : Expr.validate t = .ok ()) (htrim' : t'.trim = t')
    (hvalid' : Expr.validate t' = .ok ()) (hroom : 1 < p.maxHistory.toNat)
    (hrun : (p.evaluateTextRunning t).run {} = some (.ok x, between))
    (hrun' : (p.evaluateTextRunning t').run between = some (outcome, kept)) :
    ∃ s, (start p).run (evaluations t t') = some s ∧ s.kept = kept ∧
      ⟨t, x.short Decimal.displayDigits, 2⟩ ∈ s.session.history.items ∧
      s.session.history.HasNext ∧
      ∀ k earlier, (start p).run ((evaluations t t').take k) = some earlier →
        earlier.session.preferences = p := by
  let typed : Machine := ⟨(Session.start p).press 1 (.insert t), {}⟩
  have hequals := act_equals_of_value (s := typed) htrim hvalid hrun (History.hasNext_empty _) 2
  let changed : Machine := ⟨{ Session.start p with
    buffer := (Session.start p).buffer.setText t'
    history := (History.empty p.maxHistory.toNat).add 2 t (x.short Decimal.displayDigits) },
    between⟩
  have hitems : changed.session.history.items = [⟨t, x.short Decimal.displayDigits, 2⟩] :=
    List.take_of_length_le (Nat.le_max_right _ 1)
  have hnext : changed.session.history.HasNext := show (2 : UInt64).toNat + 1 < _ by decide
  have hlast : changed.act 5 (.press .equals) =
      some (none, ⟨changed.session.press 5 .equals fun _ => outcome, kept⟩) := by
    have hact : changed.session.act? 5 (.press .equals) (fun _ => outcome) =
        some (none, changed.session.press 5 .equals fun _ => outcome) :=
      Session.act?_eq_some_iff.mpr ⟨rfl, fun _ => hnext⟩
    rw [act_of_expression (needs_equals (s := changed) htrim' hvalid')]
    refine Option.bind_eq_some_iff.mpr ⟨_, hrun', ?_⟩
    exact Option.map_eq_some_iff.mpr ⟨_, hact, rfl⟩
  have hsteps : (start p).run (evaluations t t') =
      some ⟨changed.session.press 5 .equals fun _ => outcome, kept⟩ := by
    show Option.bind (typed.act 2 (.press .equals)) _ = _
    rw [hequals]
    show Option.bind (changed.act 5 (.press .equals)) _ = _
    rw [hlast]
    rfl
  obtain ⟨hpreferences, hhistory⟩ := equals_cases changed.session 5 fun _ => outcome
  refine ⟨_, hsteps, rfl, ?_, ?_, ?_⟩
  · obtain hhistory | ⟨expression, result, hhistory⟩ := hhistory
    · rw [hhistory, hitems]
      exact List.mem_singleton.mpr rfl
    · have hmem : ⟨t, x.short Decimal.displayDigits, 2⟩ ∈
          (changed.session.history.add 5 expression result).items := by
        rw [History.add, hitems, List.take_of_length_le (hroom.trans_le (Nat.le_max_left _ 1))]
        exact List.mem_cons_of_mem _ (List.mem_singleton.mpr rfl)
      rwa [← hhistory] at hmem
  · obtain hhistory | ⟨expression, result, hhistory⟩ := hhistory <;> rw [hhistory]
    · exact hnext
    · exact show (5 : UInt64).toNat + 1 < _ by decide
  · rintro (_ | _ | _ | _ | _ | k) earlier h
    · cases h
      rfl
    · cases h
      rfl
    -- the steps that follow the first evaluation
    iterate 3
      · obtain ⟨_, hact, h⟩ := Option.bind_eq_some_iff.mp h
        cases hequals.symm.trans hact
        cases h
        rfl
    · rw [List.take_of_length_le (Nat.le_add_left 5 k), hsteps] at h
      cases h
      exact hpreferences

/-! ### Digits that 32 bits do not count -/

section
variable {p : Preferences} {known : Constants}

theorem exists_run_bind {α β : Type} {m : Running α} {f : α → Running β} {kept : Constants}
    (h : ∃ r, m.run known = some (r, kept)) (hf : ∀ a, ∃ r, (f a).run kept = some (r, kept)) :
    ∃ r, (m >>= f).run known = some (r, kept) := by
  obtain ⟨e | a, h⟩ := h
  · exact ⟨_, Running.run_bind_error h⟩
  · rw [Running.run_bind_ok h]
    exact hf a

theorem run_pi (p : Preferences) (known : Constants) :
    (p.evaluateTextRunning "pi".toList).run known =
      some (.ok ((Decimal.pi (p.context.knowing (known.after (Decimal.piAsk p.context)))).round
        p.context.digits), known.after (Decimal.piAsk p.context)) := by
  have hread : Expr.read "pi".toList = .ok (.constant .pi) := by cbv
  rw [p.evaluateTextRunning_eq (by decide), hread]
  rfl

/-- Whatever the arccosine comes to, it has asked for a few digits more than the constant does. -/
theorem exists_run_acos (hunit : p.angleUnit = .radian) (known : Constants) :
    ∃ outcome, (p.evaluateTextRunning "acos(1)".toList).run known = some (outcome,
      known.after (Decimal.piAsk (p.context.widen NamedFunction.guardDigits))) := by
  have hread : Expr.read "acos(1)".toList = .ok (.call "acos".toList [.literal ['1']]) := by cbv
  have hname : NamedFunction.ofName? "acos".toList = some .acos := by decide
  have harguments : (Expr.evalAllRunning p.angleUnit p.context [.literal ['1']]).run known =
      some (.ok [Decimal.one], known) := by
    have hnumeral : Decimal.read? ['1'] = some Decimal.one := by decide +kernel
    simp only [Expr.evalAllRunning, Expr.evalRunning, hnumeral]
    rfl
  have hcosine : ∀ w, Decimal.one.hasCosine w = true := by
    intro w
    rw [Decimal.hasCosine, show Decimal.one.abs = Decimal.one by decide +kernel]
    simp
  have hacos : ∃ r, (Decimal.one.acosRunning (p.context.widen NamedFunction.guardDigits)).run known =
      some (r, known.after (Decimal.piAsk (p.context.widen NamedFunction.guardDigits))) := by
    rw [Decimal.acosRunning, if_neg (by decide +kernel), if_pos (hcosine _)]
    exact ⟨_, rfl⟩
  have hhalf : p.angleUnit.halfTurn? = none := by
    rw [hunit]
    rfl
  rw [p.evaluateTextRunning_eq (by decide), hread]
  show ∃ outcome, (p.evaluateRunning _).run known = some (outcome, _)
  refine exists_run_bind ?_ fun x => ⟨_, rfl⟩
  rw [Expr.evalRunning, hname, Running.run_bind_ok harguments]
  refine exists_run_bind (exists_run_bind hacos fun x => ?_) fun x => ⟨_, rfl⟩
  rw [Decimal.ofRadiansRunning, hhalf]
  exact ⟨_, rfl⟩

theorem value_pi_ne_zero {c : Context} (hknown : known.Sound)
    (hdigits : c.digits + Decimal.guardDigits + extraDigits < UInt32.size) :
    (Decimal.pi (c.knowing known)).value ≠ 0 := by
  have hpos : 0 < known.piDigits (c.digits + Decimal.guardDigits) :=
    piDigits_pos hknown (Nat.add_pos_right _ (by decide)) hdigits
  refine Decimal.value_round_ne_zero c.positive ?_
  rw [Decimal.value_ofScaled]
  exact mul_ne_zero (Int.cast_ne_zero.mpr hpos.ne') (Decimal.ten_zpow_pos _).ne'

theorem pi_of_kept_zero {c : Context} {digits : ℕ} (hknown : known.pi = some ⟨digits, 0⟩)
    (hdigits : c.digits + Decimal.guardDigits ≤ digits) :
    Decimal.pi (c.knowing (known.after (Decimal.piAsk c))) = Decimal.zero := by
  have hanswer : known.piDigits (c.digits + Decimal.guardDigits) = 0 := by
    rw [Constants.piDigits, hknown, request, if_pos hdigits, Int.zero_tdiv]
  have hpi : (known.after (Decimal.piAsk c)).piDigits (c.digits + Decimal.guardDigits) = 0 :=
    (Constants.answer_after known (Decimal.piAsk c)).trans hanswer
  have hscaled : ∀ e, Decimal.ofScaled 0 e = Decimal.zero := fun e => rfl
  rw [Decimal.pi, Context.knowing, hpi, hscaled]
  exact Decimal.round_zero c

theorem pi_after_longer {short long : ℕ} (h : short < long) :
    ((Constants.after {} { constant := .pi, digits := short }).after
      { constant := .pi, digits := long }).pi = some ⟨long, computePi long⟩ := by
  show (request computePi (some ⟨short, computePi short⟩) long).2 = _
  rw [request]
  exact congrArg Prod.snd (if_neg (not_le.mpr h))

/-- 32 bits count the digits that the constant asks for, but not those that the arccosine does: it
leaves zero behind. -/
theorem exists_runs_pi (hunit : p.angleUnit = .radian) (hdigits : p.context.digits = 4294967275) :
    ∃ x outcome between kept, x.value ≠ 0 ∧
      (p.evaluateTextRunning "pi".toList).run {} = some (.ok x, between) ∧
      (p.evaluateTextRunning "acos(1)".toList).run between = some (outcome, kept) ∧
      (p.evaluateTextRunning "pi".toList).run kept =
        some (.ok Decimal.zero, kept.after (Decimal.piAsk p.context)) := by
  have hasked : Decimal.piAsk p.context = { constant := .pi, digits := 4294967285 } := by
    rw [Decimal.piAsk, hdigits]
    rfl
  have hasked' : Decimal.piAsk (p.context.widen NamedFunction.guardDigits) =
      { constant := .pi, digits := 4294967290 } := by
    rw [Decimal.piAsk, digits_widen, hdigits]
    rfl
  have hzero : computePi 4294967290 = 0 := by decide +kernel
  have hkept := pi_after_longer (show 4294967285 < 4294967290 by decide)
  rw [hzero, ← hasked, ← hasked'] at hkept
  obtain ⟨outcome, hacos⟩ :=
    exists_run_acos hunit (Constants.after {} (Decimal.piAsk p.context))
  refine ⟨_, outcome, _, _, ?_, run_pi p {}, hacos, ?_⟩
  · have hsound : (Constants.after {} (Decimal.piAsk p.context)).Sound := by
      rw [hasked]
      exact Sound.after p.sound_known (by decide)
    refine Decimal.value_round_ne_zero p.context.positive (value_pi_ne_zero hsound ?_)
    rw [hdigits]
    decide
  · rw [run_pi, pi_of_kept_zero hkept (by rw [hdigits]; decide), Decimal.round_zero]

end

/-! ### The history of a session -/

/-- However a session goes on from its start, its history is no longer than the preferences in
force allow, and each item was put in by one of the steps, for the value that its expression had
then. It replays if and only if the clock leaves a stamp and, with what is kept of the constants
by now, its expression has a value that is displayed as its result. Under the preferences of that
step it has, if no preferences on the way asked for more than a thousand digits. -/
theorem history_replays {p : Preferences} (h : (start p).run steps = some s) :
    s.session.history.items.length ≤ max 1 s.session.preferences.maxHistory.toNat ∧
    ∀ item ∈ s.session.history.items,
      item.expression.trim = item.expression ∧ item.expression ≠ [] ∧
      (∀ now now', s.Replays item now now' ↔ s.session.history.HasNext ∧
        ∃ y kept, (s.session.preferences.evaluateTextRunning item.expression).run s.kept =
          some (.ok y, kept) ∧ y.short Decimal.displayDigits = item.result) ∧
      ∃ k before x, Entered (start p) steps item k before x ∧
        ((∀ k earlier, (start p).run (steps.take k) = some earlier →
            earlier.session.preferences.precision ≤ 1000) →
          s.session.preferences = before.session.preferences → s.session.history.HasNext →
          ∀ now now', s.Replays item now now') := by
  have hcapped := capped_run h
  refine ⟨hcapped.length_le_preferences, fun item hitem => ?_⟩
  obtain ⟨k, before, x, hentered⟩ := exists_entered h hitem
  have ⟨_, _, _, _, henters⟩ := hentered
  refine ⟨henters.trimmed, henters.trimmed ▸ Expr.trim_ne_nil_of_validate henters.valid, ?_, ?_⟩
  · exact replays_iff hcapped hitem henters.trimmed henters.valid
  · exact ⟨k, before, x, hentered, fun hprecision => replays_of_precision h hprecision hentered hitem⟩

/-- Of a sum that is evaluated twice the item that came first is replayed. -/
theorem history_replays_after_sums :
    ∃ s, (start {}).run (evaluations "1+2".toList "1+2".toList) = some s ∧
      ⟨"1+2".toList, "3".toList, 2⟩ ∈ s.session.history.items ∧
      ∀ now now', s.Replays ⟨"1+2".toList, "3".toList, 2⟩ now now' := by
  have hshort : (Decimal.ofInt 3).short Decimal.displayDigits = "3".toList := by decide +kernel
  have htrim : Text.trim "1+2".toList = "1+2".toList := by decide
  obtain ⟨hvalid, hvalue⟩ := calculate_eq_ok_iff.mp calculate_sum_after_insert
  have hvalid : Expr.validate "1+2".toList = .ok () := by rwa [← htrim]
  have hvalue : ({} : Preferences).evaluateText "1+2".toList = .ok (Decimal.ofInt 3) := by
    rwa [← htrim]
  have hmost : ({} : Preferences).mostAsked ≤ 3560 := by decide
  obtain ⟨between, hbetween, hfirst⟩ := exists_run_eq hmost "1+2".toList keptUpTo_empty
  obtain ⟨kept, -, hsecond⟩ := exists_run_eq hmost "1+2".toList hbetween
  rw [hvalue] at hfirst hsecond
  obtain ⟨s, hsteps, -, hitem, hnext, hpreferences⟩ := exists_run_evaluations htrim hvalid htrim
    hvalid (show 1 < (100 : UInt64).toNat by decide) hfirst hsecond
  rw [hshort] at hitem
  obtain ⟨-, hitems⟩ := history_replays hsteps
  obtain ⟨-, -, -, k, before, x, hentered, hreplays⟩ := hitems _ hitem
  have ⟨_, _, hbefore, _⟩ := hentered
  have hlast : s.session.preferences = {} := hpreferences 5 s hsteps
  refine ⟨s, hsteps, hitem, hreplays (fun j earlier h => ?_) ?_ hnext⟩
  · rw [hpreferences j earlier h]
    decide
  · rw [hlast, hpreferences k before hbefore]

/-- The constant is evaluated, then an arccosine, and then the item of the constant shows zero,
whatever the clock says. -/
theorem history_not_replayed :
    ∃ s item, (start { angleUnit := .radian, precision := 4294967275 }).run
        (evaluations "pi".toList "acos(1)".toList) = some s ∧
      item ∈ s.session.history.items ∧ item.expression = "pi".toList ∧
      (∀ k earlier, (start { angleUnit := .radian, precision := 4294967275 }).run
          ((evaluations "pi".toList "acos(1)".toList).take k) = some earlier →
        earlier.session.preferences = { angleUnit := .radian, precision := 4294967275 }) ∧
      s.session.history.HasNext ∧ ∀ now now', ¬s.Replays item now now' := by
  generalize hp : ({ angleUnit := .radian, precision := 4294967275 } : Preferences) = p
  obtain ⟨x, outcome, between, kept, hx, hpi, hacos, hreplay⟩ :=
    exists_runs_pi (p := p) (by rw [← hp]) (by rw [← hp]; rfl)
  have hshort : x.short Decimal.displayDigits ≠ ['0'] := Decimal.short_ne_zero (by decide) hx
  have htrim : Text.trim "pi".toList = "pi".toList := by decide
  have hvalid : Expr.validate "pi".toList = .ok () := by cbv
  have hvalid' : Expr.validate "acos(1)".toList = .ok () := by cbv
  obtain ⟨s, hsteps, hkept, hitem, hnext, hpreferences⟩ := exists_run_evaluations htrim hvalid
    (by decide) hvalid' (by rw [← hp]; decide) hpi hacos
  refine ⟨s, _, hsteps, hitem, rfl, hpreferences, hnext, fun now now' hreplays => ?_⟩
  obtain ⟨-, y, kept', hrun, hshown⟩ :=
    (replays_iff (capped_run hsteps) hitem htrim hvalid now now').mp hreplays
  rw [hpreferences 5 s hsteps, hkept] at hrun
  cases hreplay.symm.trans hrun
  exact hshort (hshown.symm.trans (by decide +kernel))

end Machine

end DeskCalculator
