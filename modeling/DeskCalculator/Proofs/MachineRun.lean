import DeskCalculator.Desk.Machine
import DeskCalculator.Proofs.BufferRunning
import DeskCalculator.Proofs.Session

/-!
# Runs of a running program

A step that the program survives does to the session what it does with the value that its
expression comes to there, and leaves what that evaluation has kept of the constants. So along
every run the history is no longer than the preferences in force allow, each of its items was put
in by one of the steps, and no digits of a constant are kept beyond those that some preferences
asked for.
-/

set_option autoImplicit false

namespace DeskCalculator

open DeskCalculator.FixedPoint DeskCalculator.FixedPoint.Constants

namespace FixedPoint.Constants

/-! ### Constants up to a number of digits -/

/-- What is kept was computed, and is no longer than `limit` digits. -/
structure KeptUpTo (limit : ℕ) (known : Constants) : Prop where
  sound : known.Sound
  pi : ∀ longest ∈ known.pi, longest.digits ≤ limit
  ln10 : ∀ longest ∈ known.ln10, longest.digits ≤ limit

variable {limit digits : ℕ} {known : Constants}

theorem digits_request_le {compute : ℕ → ℤ} {kept : Option Longest} (hdigits : digits ≤ limit)
    (h : ∀ longest ∈ kept, longest.digits ≤ limit) :
    ∀ longest ∈ (request compute kept digits).2, longest.digits ≤ limit := by
  unfold request
  cases kept with
  | none => rintro _ ⟨⟩; exact hdigits
  | some first =>
    simp only
    split
    · exact h
    · rintro _ ⟨⟩
      exact hdigits

theorem keptUpTo_empty : KeptUpTo limit {} :=
  ⟨Preferences.sound_known {}, by rintro _ ⟨⟩, by rintro _ ⟨⟩⟩

theorem serves_keptUpTo (room : limit + extraDigits < UInt32.size) :
    Serves limit (KeptUpTo limit) where
  sound := KeptUpTo.sound
  after {known asked} h hdigits := by
    obtain ⟨constant, digits, divides⟩ := asked
    have hsound : (known.after ⟨constant, digits, divides⟩).Sound :=
      h.sound.after ((Nat.add_le_add_right hdigits _).trans_lt room)
    cases constant with
    | pi => exact ⟨hsound, digits_request_le hdigits h.pi, h.ln10⟩
    | ln10 => exact ⟨hsound, h.pi, digits_request_le hdigits h.ln10⟩
  room := room

end FixedPoint.Constants

namespace Session

variable {s : Session} {value : Text → Except CalcError Decimal}

theorem act?_eq_some_iff {now : UInt64} {action : Action} {after : Option Bool × Session} :
    s.act? now action value = some after ↔ s.act now action value = after ∧
      (s.records action value → s.history.HasNext) := by
  rw [act?, Option.ite_none_left_eq_some, Option.some_inj, and_comm, not_and, not_not]

theorem notice_of_error {e : CalcError} (hne : s.buffer.text.trim ≠ [])
    (h : s.calculate value = .error e) (now : UInt64) :
    (s.evaluate now value).2.notice = some (.calculation e) := by
  unfold evaluate
  simp only [h, List.isEmpty_iff, if_neg hne]

end Session

namespace Machine

open Session

/-- What an action does to the history, and to the preferences that bound its length. -/
inductive Revises (s s' : Machine) (now : UInt64) : Prop
  | kept : s'.session.history = s.session.history →
      s'.session.preferences = s.session.preferences → Revises s s' now
  | cleared : s'.session.history = s.session.history.clear →
      s'.session.preferences = s.session.preferences → Revises s s' now
  | bounded : s'.session.history =
      s.session.history.setMax s'.session.preferences.maxHistory.toNat → Revises s s' now
  | recorded {x : Decimal} : s.session.history.HasNext →
      Expr.validate s.session.buffer.text.trim = .ok () →
      (s.session.preferences.evaluateTextRunning s.session.buffer.text.trim).run s.kept =
        some (.ok x, s'.kept) →
      s'.session.history = s.session.history.add now s.session.buffer.text.trim
        (x.short Decimal.displayDigits) →
      s'.session.preferences = s.session.preferences → Revises s s' now

/-- The values that a step works with: those of all texts if it needs none, and otherwise what the
one text comes to that it needs. -/
def Supplies (s : Machine) (needs : Buffer.Needs) (kept : Constants)
    (value : Text → Except CalcError Decimal) : Prop :=
  value = s.session.preferences.evaluateText ∧ needs.expression = none ∧ kept = s.kept ∨
    ∃ t outcome, needs.expression = some t ∧
      (s.session.preferences.evaluateTextRunning t).run s.kept = some (outcome, kept) ∧
      value = fun _ => outcome

variable {s s' : Machine} {now : UInt64} {ret : Option Bool} {action : Action}

theorem act_cases (h : s.act now action = some (ret, s')) :
    ∃ value : Text → Except CalcError Decimal,
      (ret, s'.session) = s.session.act now action value ∧
      (s.session.records action value → s.session.history.HasNext) ∧
      s.Supplies (s.session.needs action) s'.kept value := by
  obtain ⟨⟨after?, kept⟩, hmeet, h⟩ := Option.bind_eq_some_iff.mp h
  obtain ⟨⟨ret', after⟩, hafter, h⟩ := Option.bind_eq_some_iff.mp h
  cases h
  obtain ⟨rfl, hnone, rfl⟩ | ⟨t, outcome, hsome, hrun, rfl⟩ := Buffer.meet_cases hmeet
  · obtain ⟨hact, hnext⟩ := Session.act?_eq_some_iff.mp hafter
    exact ⟨_, hact.symm, hnext, .inl ⟨rfl, hnone, rfl⟩⟩
  · obtain ⟨hact, hnext⟩ := Session.act?_eq_some_iff.mp hafter
    exact ⟨_, hact.symm, hnext, .inr ⟨t, outcome, hsome, hrun, rfl⟩⟩

theorem revises_of_evaluate {value : Text → Except CalcError Decimal}
    (hsession : s'.session = (s.session.evaluate now value).2)
    (hnext : (s.session.calculate value).isOk → s.session.history.HasNext)
    (hvalue : s.Supplies s.session.evaluationNeeds s'.kept value) : Revises s s' now := by
  cases h : s.session.calculate value with
  | error e =>
    obtain ⟨hhistory, hpreferences⟩ := evaluate_of_error h now
    exact .kept (by rw [hsession, hhistory]) (by rw [hsession, hpreferences])
  | ok x =>
    obtain ⟨hvalid, hx⟩ := calculate_eq_ok_iff.mp h
    have hexpression : s.session.evaluationNeeds.expression = some s.session.buffer.text.trim := by
      rw [evaluationNeeds, Buffer.expression?, hvalid]
      rfl
    obtain ⟨-, hnone, -⟩ | ⟨t, outcome, hsome, hrun, rfl⟩ := hvalue
    · rw [hnone] at hexpression
      cases hexpression
    · obtain rfl : t = s.session.buffer.text.trim := Option.some.inj (hsome.symm.trans hexpression)
      obtain rfl : outcome = .ok x := hx
      rw [evaluate_of_calculate h] at hsession
      exact .recorded (hnext (by rw [h]; rfl)) hvalid hrun (by rw [hsession]) (by rw [hsession])

theorem revises_update {u : Preferences.Update} (hsession : s'.session = s.session.update u) :
    Revises s s' now := by
  refine .bounded ?_
  rw [hsession]
  unfold update
  simp only
  split <;> rfl

theorem revises_act (h : s.act now action = some (ret, s')) : Revises s s' now := by
  obtain ⟨value, hsession, hnext, hvalue⟩ := act_cases h
  have hsession : s'.session = (s.session.act now action value).2 := congrArg Prod.snd hsession
  cases action with
  | evaluate => exact revises_of_evaluate hsession hnext hvalue
  | update u => exact revises_update hsession
  | setMode | toggleSecond => exact .kept (by rw [hsession]; rfl) (by rw [hsession]; rfl)
  | restore stamp =>
    unfold Session.act restore at hsession
    simp only at hsession
    split at hsession <;> exact .kept (by rw [hsession]) (by rw [hsession])
  | clearAll => exact .cleared (by rw [hsession]; rfl) (by rw [hsession]; rfl)
  | press key =>
    cases key with
    | equals => exact revises_of_evaluate hsession hnext hvalue
    | mode mode => exact revises_update (u := { mode := some mode }) hsession
    | insert | delete | clearEntry | clear | sign | second =>
      exact .kept (by rw [hsession]; rfl) (by rw [hsession]; rfl)
    | clearAll => exact .cleared (by rw [hsession]; rfl) (by rw [hsession]; rfl)
    | percent =>
      unfold Session.act press at hsession
      simp only at hsession
      split at hsession <;> exact .kept (by rw [hsession]) (by rw [hsession])
    | memory action =>
      unfold Session.act press actOnMemory at hsession
      simp only at hsession
      split at hsession <;> exact .kept (by rw [hsession]) (by rw [hsession])

/-! ### What the steps come to -/

theorem act_of_no_needs {action : Action} (hneeds : s.session.needs action = {}) (now : UInt64) :
    s.act now action = (s.session.act? now action).map fun (ret, after) => (ret, ⟨after, s.kept⟩) := by
  rw [Machine.act, hneeds]
  show (s.session.act? now action).bind _ = _
  cases s.session.act? now action <;> rfl

theorem act_of_expression {action : Action} {t : Text}
    (hneeds : s.session.needs action = { expression := some t }) (now : UInt64) :
    s.act now action =
      ((s.session.preferences.evaluateTextRunning t).run s.kept).bind fun (outcome, kept) =>
        (s.session.act? now action fun _ => outcome).map fun (ret, after) =>
          (ret, ⟨after, kept⟩) := by
  rw [Machine.act, hneeds]
  show Option.bind (Option.bind ((s.session.preferences.evaluateTextRunning t).run s.kept) _) _ = _
  cases hrun : (s.session.preferences.evaluateTextRunning t).run s.kept with
  | none => rfl
  | some first =>
    obtain ⟨outcome, kept⟩ := first
    show (s.session.act? now action fun _ => outcome).bind _ = Option.map _ _
    cases s.session.act? now action fun _ => outcome <;> rfl

theorem needs_equals {t : Text} (htext : s.session.buffer.text.trim = t)
    (hvalid : Expr.validate t = .ok ()) :
    s.session.needs (.press .equals) = { expression := some t } := by
  rw [needs, pressNeeds, evaluationNeeds, htext, Buffer.expression?, hvalid]
  rfl

theorem calculate_of_valid {session : Session} {t : Text}
    (htext : session.buffer.text.trim = t) (hvalid : Expr.validate t = .ok ())
    (outcome : Except CalcError Decimal) : session.calculate (fun _ => outcome) = outcome := by
  rw [calculate, htext, hvalid]
  rfl

theorem act_equals_of_value {t : Text} {y : Decimal} {kept : Constants}
    (htext : s.session.buffer.text.trim = t) (hvalid : Expr.validate t = .ok ())
    (hrun : (s.session.preferences.evaluateTextRunning t).run s.kept = some (.ok y, kept))
    (hnext : s.session.history.HasNext) (now : UInt64) :
    s.act now (.press .equals) = some (none, ⟨{ s.session with
      result := y.short Decimal.displayDigits
      notice := none
      buffer := s.session.buffer.setResult y
      history := s.session.history.add now t (y.short Decimal.displayDigits) }, kept⟩) := by
  have hevaluate := evaluate_of_calculate (calculate_of_valid htext hvalid (.ok y)) now
  rw [htext] at hevaluate
  have hact : s.session.act? now (.press .equals) (fun _ => .ok y) =
      some (none, s.session.press now .equals fun _ => .ok y) :=
    Session.act?_eq_some_iff.mpr ⟨rfl, fun _ => hnext⟩
  rw [act_of_expression (needs_equals htext hvalid), hrun]
  show Option.map _ (s.session.act? now (.press .equals) fun _ => .ok y) = _
  rw [hact, press, hevaluate]
  rfl

/-! ### Runs -/

def run (s : Machine) : List (UInt64 × Action) → Option Machine
  | [] => some s
  | (now, action) :: rest => do
    let (_, s') ← s.act now action
    s'.run rest

variable {steps : List (UInt64 × Action)} {first : Machine}

theorem exists_of_run_snoc {step : UInt64 × Action} (h : first.run (steps ++ [step]) = some s') :
    ∃ s ret, first.run steps = some s ∧ s.act step.1 step.2 = some (ret, s') := by
  induction steps generalizing first with
  | nil =>
    obtain ⟨⟨ret, after⟩, hact, hrest⟩ := Option.bind_eq_some_iff.mp h
    cases hrest
    exact ⟨first, ret, rfl, hact⟩
  | cons earlier rest ih =>
    obtain ⟨⟨ret, after⟩, hact, hrest⟩ := Option.bind_eq_some_iff.mp h
    obtain ⟨s, ret', hrun, hlast⟩ := ih hrest
    exact ⟨s, ret', Option.bind_eq_some_iff.mpr ⟨_, hact, hrun⟩, hlast⟩

theorem Revises.exists_change (h : Revises s s' now) :
    s'.session.history = s.session.history ∨
      ∃ c, s.session.history.change? c = some s'.session.history := by
  cases h with
  | kept hhistory => exact .inl hhistory
  | cleared hhistory => exact .inr ⟨.clear, congrArg some hhistory.symm⟩
  | bounded hhistory => exact .inr ⟨.setMax _, congrArg some hhistory.symm⟩
  | recorded hnext _ _ hhistory =>
    exact .inr ⟨.add _ _ _, History.change?_eq_some_iff.mpr ⟨hnext, hhistory.symm⟩⟩

/-! ### The length of the history -/

structure Capped (s : Machine) : Prop where
  ordered : s.session.history.Ordered
  max_eq : s.session.history.max = Nat.max s.session.preferences.maxHistory.toNat 1

theorem Capped.revises (hs : s.Capped) (h : Revises s s' now) : s'.Capped where
  ordered := by
    obtain hhistory | ⟨c, hchange⟩ := h.exists_change
    · exact hhistory ▸ hs.ordered
    · obtain ⟨hallows, hhistory⟩ := History.change?_eq_some_iff.mp hchange
      exact hhistory ▸ hs.ordered.change hallows
  max_eq := by
    cases h with
    | kept hhistory hpreferences | cleared hhistory hpreferences
    | recorded _ _ _ hhistory hpreferences =>
      rw [hhistory, hpreferences]
      exact hs.max_eq
    | bounded hhistory => rw [hhistory, History.setMax]

theorem capped_run {p : Preferences} (h : (start p).run steps = some s) : s.Capped := by
  induction steps using List.reverseRecOn generalizing s with
  | nil =>
    cases h
    exact ⟨.empty p.maxHistory.toNat, rfl⟩
  | append_singleton steps step ih =>
    obtain ⟨before, ret, hrun, hact⟩ := exists_of_run_snoc h
    exact (ih hrun).revises (revises_act hact)

theorem Capped.length_le_preferences (hs : s.Capped) :
    s.session.history.items.length ≤ max 1 s.session.preferences.maxHistory.toNat :=
  calc s.session.history.items.length ≤ s.session.history.max := hs.ordered.length_le
    _ = max s.session.preferences.maxHistory.toNat 1 := hs.max_eq
    _ = max 1 s.session.preferences.maxHistory.toNat := max_comm _ _

/-! ### The steps that put the items in -/

/-- Between two states the item was put in front of the history, for the value `x` that its
expression had with the digits kept before. -/
structure Enters (before after : Machine) (now : UInt64) (item : HistoryItem) (x : Decimal) :
    Prop where
  trimmed : item.expression.trim = item.expression
  valid : Expr.validate item.expression = .ok ()
  value : (before.session.preferences.evaluateTextRunning item.expression).run before.kept =
    some (.ok x, after.kept)
  shown : item.result = x.short Decimal.displayDigits
  stamp : item.stamp = before.session.history.nextStamp now
  history : after.session.history =
    before.session.history.add now item.expression item.result

/-- Step `k` of a run put the item in. -/
def Entered (first : Machine) (steps : List (UInt64 × Action)) (item : HistoryItem) (k : ℕ)
    (before : Machine) (x : Decimal) : Prop :=
  ∃ (hk : k < steps.length) (after : Machine), first.run (steps.take k) = some before ∧
    first.run (steps.take (k + 1)) = some after ∧ Enters before after steps[k].1 item x

theorem Entered.snoc {item : HistoryItem} {k : ℕ} {before : Machine} {x : Decimal}
    (h : Entered first steps item k before x) (step : UInt64 × Action) :
    Entered first (steps ++ [step]) item k before x := by
  obtain ⟨hk, after, hbefore, hafter, henters⟩ := h
  refine ⟨by rw [List.length_append]; omega, after, ?_, ?_, ?_⟩
  · rwa [List.take_append_of_le_length hk.le]
  · rwa [List.take_append_of_le_length hk]
  · rwa [List.getElem_append_left hk]

theorem exists_entered {p : Preferences} (h : (start p).run steps = some s) {item : HistoryItem}
    (hitem : item ∈ s.session.history.items) :
    ∃ k before x, Entered (start p) steps item k before x := by
  -- the newest item may be the one of the last step, all others were there before it
  induction steps using List.reverseRecOn generalizing s with
  | nil =>
    cases h
    cases hitem
  | append_singleton steps step ih =>
    have hall : (steps ++ [step]).take (steps.length + 1) = steps ++ [step] :=
      List.take_of_length_le (by rw [List.length_append, List.length_singleton])
    obtain ⟨before, ret, hrun, hact⟩ := exists_of_run_snoc h
    have hold : item ∈ before.session.history.items →
        ∃ k earlier x, Entered (start p) (steps ++ [step]) item k earlier x := by
      intro hmem
      obtain ⟨k, earlier, x, hentered⟩ := ih hrun hmem
      exact ⟨k, earlier, x, hentered.snoc step⟩
    cases revises_act hact with
    | kept hhistory => exact hold (hhistory ▸ hitem)
    | cleared hhistory =>
      rw [hhistory] at hitem
      cases hitem
    | bounded hhistory =>
      rw [hhistory] at hitem
      exact hold (List.mem_of_mem_take hitem)
    | @recorded x hnext hvalid hvalue hhistory =>
      have hmem := hitem
      rw [hhistory] at hmem
      rcases List.mem_cons.mp (List.mem_of_mem_take hmem) with rfl | hmem
      · refine ⟨steps.length, before, x, by simp, s, ?_, ?_, ?_⟩
        · rwa [List.take_left]
        · rwa [hall]
        · rw [List.getElem_concat_length rfl]
          exact ⟨Text.trim_trim _, hvalid, hvalue, rfl, rfl, hhistory⟩
      · exact hold hmem

/-! ### What is kept along a run -/

theorem keptUpTo_act {limit : ℕ} (room : limit + extraDigits < UInt32.size)
    (hlimit : s.session.preferences.mostAsked ≤ limit) (hs : KeptUpTo limit s.kept)
    (h : s.act now action = some (ret, s')) : KeptUpTo limit s'.kept := by
  obtain ⟨value, -, -, ⟨-, -, hkept⟩ | ⟨t, outcome, -, hrun, -⟩⟩ := act_cases h
  · rw [hkept]
    exact hs
  · obtain ⟨r, kept, hfollows, hkept, -⟩ := s.session.preferences.follows_evaluateText
      (serves_keptUpTo room) hlimit t s.kept hs
    obtain ⟨-, rfl⟩ := Prod.mk.inj (Option.some.inj (hfollows.symm.trans hrun))
    exact hkept

/-- No preferences on the way need more than `limit` digits of a constant. -/
def NeedsUpTo (first : Machine) (steps : List (UInt64 × Action)) (limit : ℕ) : Prop :=
  ∀ k s, first.run (steps.take k) = some s → s.session.preferences.mostAsked ≤ limit

theorem NeedsUpTo.of_snoc {limit : ℕ} {step : UInt64 × Action}
    (h : NeedsUpTo first (steps ++ [step]) limit) : NeedsUpTo first steps limit := by
  intro k s hrun
  by_cases hk : k ≤ steps.length
  · exact h k s (by rwa [List.take_append_of_le_length hk])
  · rw [List.take_of_length_le (by omega)] at hrun
    exact h steps.length s (by rwa [List.take_left])

theorem keptUpTo_run {p : Preferences} {limit : ℕ} (room : limit + extraDigits < UInt32.size)
    (hlimit : NeedsUpTo (start p) steps limit) (h : (start p).run steps = some s) :
    KeptUpTo limit s.kept := by
  induction steps using List.reverseRecOn generalizing s with
  | nil =>
    cases h
    exact keptUpTo_empty
  | append_singleton steps step ih =>
    obtain ⟨before, ret, hrun, hact⟩ := exists_of_run_snoc h
    have hneeds := hlimit steps.length before (by rwa [List.take_left])
    exact keptUpTo_act room hneeds (ih hlimit.of_snoc hrun) hact

end Machine

end DeskCalculator
