import DeskCalculator.Desk.Session
import DeskCalculator.Proofs.Effects
import DeskCalculator.Proofs.History
import DeskCalculator.Proofs.Token

/-!
# The last result of a session

An action forgets the last result, leaves it with all that shows it, or puts the value of
the text in its place. So whatever the keys and changes of a session were, a last result is
the one on the display, the newest item of the history records it with the text under
edit, and it is the value of that text under preferences that were in force.
-/

set_option autoImplicit false

namespace DeskCalculator

namespace Text

theorem trimRight_prefix (t : Text) : t.trimRight <+: t := by
  obtain ⟨blanks, h⟩ := List.dropWhile_suffix isBlank (l := t.reverse)
  exact ⟨blanks.reverse, by rw [trimRight, ← List.reverse_append, h, List.reverse_reverse]⟩

theorem not_blank_of_head?_trimLeft {t : Text} {c : Char} (h : t.trimLeft.head? = some c) :
    isBlank c = false := by
  have hnot := List.head?_dropWhile_not isBlank t
  rw [show (t.dropWhile isBlank).head? = some c from h] at hnot
  simpa using hnot

theorem trimRight_trimRight (t : Text) : t.trimRight.trimRight = t.trimRight := by
  rw [trimRight, trimRight, List.reverse_reverse]
  exact congrArg List.reverse (dropWhile_eq_self fun c hc => not_blank_of_head?_trimLeft hc)

theorem trimLeft_trim (t : Text) : t.trim.trimLeft = t.trim := by
  refine dropWhile_eq_self fun c hc => not_blank_of_head?_trimLeft (t := t) ?_
  -- what is left after both ends are trimmed starts as it did after the left one was
  obtain ⟨blanks, h⟩ := trimRight_prefix t.trimLeft
  have hne : t.trim ≠ [] := List.ne_nil_of_mem (List.mem_of_mem_head? hc)
  rw [← h]
  exact (List.head?_append_of_ne_nil _ hne).trans hc

theorem trim_trim (t : Text) : t.trim.trim = t.trim := by
  rw [trim, trimLeft_trim, trim, trimRight_trimRight]

end Text

theorem Expr.trim_ne_nil_of_validate {t : Text} (h : Expr.validate t = .ok ()) : t.trim ≠ [] := by
  intro hnil
  rw [Expr.validate, hnil] at h
  cases h

namespace Session

def run (s : Session) : List (UInt64 × Action) → Session
  | [] => s
  | (now, action) :: rest => (s.act now action).2.run rest

theorem run_snoc (s : Session) (steps : List (UInt64 × Action)) (step : UInt64 × Action) :
    s.run (steps ++ [step]) = ((s.run steps).act step.1 step.2).2 := by
  induction steps generalizing s with
  | nil => rfl
  | cons first rest ih => exact ih _

/-! ### Evaluating the text under edit -/

section

variable {s : Session} {value : Text → Except CalcError Decimal} {x : Decimal}

theorem calculate_eq_ok_iff : s.calculate value = .ok x ↔
    Expr.validate s.buffer.text.trim = .ok () ∧ value s.buffer.text.trim = .ok x := by
  rw [calculate, bind_eq_ok]
  exact ⟨fun ⟨_, hvalid, hvalue⟩ => ⟨hvalid, hvalue⟩, fun ⟨hvalid, hvalue⟩ => ⟨(), hvalid, hvalue⟩⟩

theorem evaluate_of_calculate (h : s.calculate value = .ok x) (now : UInt64) :
    s.evaluate now value = (true, { s with
      result := x.short Decimal.displayDigits
      notice := none
      buffer := s.buffer.setResult x
      history := s.history.add now s.buffer.text.trim (x.short Decimal.displayDigits) }) := by
  have hne := Expr.trim_ne_nil_of_validate (calculate_eq_ok_iff.mp h).1
  rw [Text.trim_trim] at hne
  unfold evaluate
  simp only [h, List.isEmpty_iff, if_neg hne]

theorem evaluate_of_error {e : CalcError} (h : s.calculate value = .error e) (now : UInt64) :
    (s.evaluate now value).2.history = s.history ∧
      (s.evaluate now value).2.preferences = s.preferences := by
  unfold evaluate
  simp only [h]
  split <;> exact ⟨rfl, rfl⟩

end

/-! ### What an action does -/

/-- What an action does to the buffer, with the result on display and the history. -/
inductive Affects (s s' : Session) : Prop
  | edited (t : Text) : s'.buffer = s.buffer.setText t → s'.history.max = s.history.max →
      Affects s s'
  | remembered {action : MemoryAction} {effect : MemoryEffect} {memory : Option Decimal} :
      s.buffer.actOnMemory s.preferences action = .ok (effect, s'.buffer) →
      s'.buffer = { s.buffer with memory := memory } → s'.result = s.result →
      s'.history = s.history → Affects s s'
  | kept : s'.buffer = s.buffer → s'.result = s.result →
      (s'.history = s.history ∨ ∃ max, s'.history = s.history.setMax max) → Affects s s'
  | evaluated {now : UInt64} {x : Decimal} :
      s.preferences.evaluateText s.buffer.text.trim = .ok x → s'.buffer = s.buffer.setResult x →
      s'.result = x.short Decimal.displayDigits →
      s'.history = s.history.add now s.buffer.text.trim s'.result → Affects s s'

variable (s : Session) (now : UInt64)

theorem affects_actOnMemory (action : MemoryAction) : Affects s (s.actOnMemory action) := by
  unfold actOnMemory
  split
  · exact .kept rfl rfl (.inl rfl)
  · next effect b h =>
    obtain ⟨t, ht⟩ | ⟨heffect, memory, hb, -⟩ := Buffer.actOnMemory_cases h
    · exact .edited t ht rfl
    · exact .remembered h hb (by simp [heffect]) rfl

theorem affects_evaluate : Affects s (s.evaluate now).2 := by
  unfold evaluate
  simp only
  split
  · exact .kept rfl rfl (.inl rfl)
  · split
    · exact .kept rfl rfl (.inl rfl)
    · next x h =>
      obtain ⟨-, -, hx⟩ := bind_eq_ok.mp h
      exact .evaluated hx rfl rfl rfl

theorem affects_update (u : Preferences.Update) : Affects s (s.update u) := by
  unfold update
  simp only
  split <;> exact .kept rfl rfl (.inr ⟨_, rfl⟩)

theorem affects_press (key : Key) : Affects s (s.press now key) := by
  cases key with
  | insert | delete | clear | clearAll => exact .edited _ rfl rfl
  | clearEntry =>
    obtain ⟨t, ht⟩ := s.buffer.exists_setText_clearEntry
    exact .edited t ht rfl
  | sign =>
    obtain ⟨t, ht⟩ := s.buffer.exists_setText_toggleSign
    exact .edited t ht rfl
  | percent =>
    unfold press
    simp only
    split
    · exact .kept rfl rfl (.inl rfl)
    · next b h =>
      obtain ⟨e, x, v, -, -, -, hb⟩ := Buffer.exists_of_percent h
      exact .edited _ hb rfl
  | equals => exact s.affects_evaluate now
  | memory action => exact s.affects_actOnMemory action
  | mode mode => exact s.affects_update { mode := some mode }
  | second => exact .kept rfl rfl (.inl rfl)

theorem affects_act (action : Action) : Affects s (s.act now action).2 := by
  cases action with
  | press key => exact s.affects_press now key
  | evaluate => exact s.affects_evaluate now
  | update u => exact s.affects_update u
  | setMode | toggleSecond => exact .kept rfl rfl (.inl rfl)
  | restore stamp =>
    unfold act restore
    simp only
    split
    · exact .edited _ rfl rfl
    · exact .kept rfl rfl (.inl rfl)
  | clearAll => exact .edited _ rfl rfl

/-! ### The history -/

theorem Affects.max_pos {s s' : Session} (h : Affects s s') (hroom : 0 < s.history.max) :
    0 < s'.history.max := by
  cases h with
  | edited t _ hmax => rwa [hmax]
  | remembered _ _ _ hhistory => rwa [hhistory]
  | kept _ _ hhistory =>
    obtain hhistory | ⟨max, hhistory⟩ := hhistory
    · rwa [hhistory]
    · rw [hhistory]
      exact Nat.le_max_right max 1
  | evaluated _ _ _ hhistory =>
    rw [hhistory]
    exact hroom

/-! ### Runs -/

/-- The result `x` is on the display, and in front of the history with the text under edit. -/
structure Displays (s : Session) (x : Decimal) : Prop where
  result : s.result = x.short Decimal.displayDigits
  newest : ∃ item, s.history.items.head? = some item ∧
    item.expression = s.buffer.text.trim ∧ item.result = s.result

/-- A last result is on display, and it is the value of the text under one of the preferences
that `past` holds of. -/
structure Backed (past : Preferences → Prop) (s : Session) : Prop where
  room : 0 < s.history.max
  displays : ∀ x, s.buffer.lastResult = some x → s.Displays x
  value : ∀ x, s.buffer.lastResult = some x →
    ∃ p, past p ∧ p.evaluateText s.buffer.text.trim = .ok x

namespace Backed

variable {past past' : Preferences → Prop} {s : Session}

theorem mono (h : Backed past s) (hp : ∀ p, past p → past' p) : Backed past' s where
  room := h.room
  displays := h.displays
  value x hx := by
    obtain ⟨p, hpast, hvalue⟩ := h.value x hx
    exact ⟨p, hp p hpast, hvalue⟩

theorem start (p : Preferences) : Backed past (start p) where
  room := Nat.le_max_right _ 1
  displays := by rintro x ⟨⟩
  value := by rintro x ⟨⟩

theorem of_unchanged (h : Backed past s) {s' : Session} (hroom : 0 < s'.history.max)
    (htext : s'.buffer.text = s.buffer.text) (hlast : s'.buffer.lastResult = s.buffer.lastResult)
    (hresult : s'.result = s.result)
    (hhead : s'.history.items.head? = s.history.items.head?) : Backed past s' where
  room := hroom
  displays x hx := by
    obtain ⟨hshort, hnewest⟩ := h.displays x (hlast ▸ hx)
    exact ⟨hresult.trans hshort, by rwa [hhead, htext, hresult]⟩
  value x hx := by
    obtain ⟨p, hp, hvalue⟩ := h.value x (hlast ▸ hx)
    exact ⟨p, hp, by rwa [htext]⟩

theorem act (h : Backed past s) (now : UInt64) (action : Action) :
    Backed (fun p => past p ∨ p = s.preferences) (s.act now action).2 := by
  have hroom := (s.affects_act now action).max_pos h.room
  have hpast : ∀ p, past p → past p ∨ p = s.preferences := fun p => .inl
  cases s.affects_act now action with
  | edited t hbuffer =>
    refine ⟨hroom, ?_, ?_⟩ <;>
      · intro x hx
        rw [hbuffer] at hx
        cases hx
  | remembered _ hbuffer hresult hhistory =>
    exact (h.of_unchanged hroom (by rw [hbuffer]) (by rw [hbuffer]) hresult
      (by rw [hhistory])).mono hpast
  | kept hbuffer hresult hhistory =>
    refine (h.of_unchanged hroom (by rw [hbuffer]) (by rw [hbuffer]) hresult ?_).mono hpast
    obtain hhistory | ⟨max, hhistory⟩ := hhistory
    · rw [hhistory]
    · rw [hhistory, History.head?_setMax]
  | @evaluated now' y hy hbuffer hresult hhistory =>
    have hlast : ∀ x, (s.act now action).2.buffer.lastResult = some x → y = x := by
      intro x hx
      rw [hbuffer] at hx
      exact Option.some.inj hx
    have htext : (s.act now action).2.buffer.text = s.buffer.text := by rw [hbuffer]; rfl
    refine ⟨hroom, fun x hx => ?_, fun x hx => ?_⟩
    · obtain rfl := hlast x hx
      refine ⟨hresult, ⟨s.buffer.text.trim, (s.act now action).2.result, s.history.nextStamp now'⟩,
        ?_, ?_, rfl⟩
      · rw [hhistory, History.head?_add h.room]
      · rw [htext]
    · obtain rfl := hlast x hx
      exact ⟨s.preferences, .inr rfl, by rwa [htext]⟩

theorem run (h : Backed past s) (steps : List (UInt64 × Action)) :
    Backed (fun p => past p ∨ ∃ k < steps.length, p = (s.run (steps.take k)).preferences)
      (s.run steps) := by
  induction steps generalizing s past with
  | nil => exact h.mono fun p hp => .inl hp
  | cons step rest ih =>
    obtain ⟨now, action⟩ := step
    refine (ih (h.act now action)).mono ?_
    rintro p ((hp | rfl) | ⟨k, hk, rfl⟩)
    · exact .inl hp
    · exact .inr ⟨0, Nat.succ_pos _, rfl⟩
    · exact .inr ⟨k + 1, Nat.succ_lt_succ hk, rfl⟩

end Backed

theorem calculate_sum_after_insert :
    ((start {}).press 1 (.insert "1+2".toList)).calculate = .ok (Decimal.ofInt 3) := by
  have hread : Expr.read "1+2".toList = .ok (.binary .add (.literal ['1']) (.literal ['2'])) := by
    cbv
  have hvalue : (({} : Preferences).evaluate
      (.binary .add (.literal ['1']) (.literal ['2']))).toOption = some (Decimal.ofInt 3) := by
    decide +kernel
  have htrim : Text.trim "1+2".toList = "1+2".toList := by decide
  show (do
    Expr.validate (Text.trim "1+2".toList)
    ({} : Preferences).evaluateText (Text.trim "1+2".toList)) = _
  rw [htrim, Expr.validate, Preferences.evaluateText, htrim, hread]
  show ({} : Preferences).evaluate _ = _
  generalize ({} : Preferences).evaluate _ = outcome at hvalue
  cases outcome with
  | error e => cases hvalue
  | ok x => exact congrArg _ (Option.some.inj hvalue)

end Session

end DeskCalculator
