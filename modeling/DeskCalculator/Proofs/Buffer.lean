import DeskCalculator.Proofs.Session
import DeskCalculator.Proofs.Written

/-!
# Numbers that the buffer writes

A recall of the memory and a percentage write a number into the text. Both numbers come from
a reading, an evaluation or an operation, so they do not reach too far below the point, and
the text that is written has them as its value, unless it shows an exponent.
-/

set_option autoImplicit false

namespace DeskCalculator

namespace Buffer

/-- The buffers that come from the empty one. Typing, deleting and clearing only set the text;
a result that is put in has an exponent that a word of 64 bits can hold. -/
inductive Reachable : Buffer → Prop
  | empty : Reachable {}
  | setText {b : Buffer} (t : Text) : Reachable b → Reachable (b.setText t)
  | setResult {b : Buffer} {x : Decimal} : x.Shallow → Reachable b → Reachable (b.setResult x)
  | toggleSign {b : Buffer} : Reachable b → Reachable b.toggleSign.2
  | percent {b b' : Buffer} {p : Preferences} : b.percent p = .ok b' → Reachable b → Reachable b'
  | actOnMemory {b b' : Buffer} {p : Preferences} {action : MemoryAction} {effect : MemoryEffect} :
      b.actOnMemory p action = .ok (effect, b') → Reachable b → Reachable b'

structure IsShallow (b : Buffer) : Prop where
  lastResult : ∀ x, b.lastResult = some x → x.Shallow
  memory : ∀ m, b.memory = some m → m.Shallow

variable {b b' : Buffer} {p : Preferences}

theorem shallow_of_valueOf {t : Text} {x : Decimal} (h : valueOf? p t = some x) : x.Shallow := by
  obtain ⟨_, -, h⟩ := Option.bind_eq_some_iff.mp h
  exact Preferences.shallow_of_evaluateText (toOption_eq_some.mp h)

theorem shallow_of_entryValue {t : Text} {x : Decimal} (h : entryValue? t = some x) :
    x.Shallow := by
  obtain ⟨_, -, h⟩ := Option.bind_eq_some_iff.mp h
  exact Decimal.shallow_of_read h

namespace IsShallow

variable (h : IsShallow b)
include h

theorem setText (t : Text) : IsShallow (b.setText t) where
  lastResult := by rintro x ⟨⟩
  memory := h.memory

theorem currentValue {x : Decimal} (hx : b.currentValue? p = some x) : x.Shallow := by
  unfold currentValue? at hx
  split at hx
  · next hlast =>
    cases hx
    exact h.lastResult _ hlast
  · cases hentry : entryValue? b.text with
    | some y =>
      rw [hentry] at hx
      cases hx
      exact shallow_of_entryValue hentry
    | none =>
      rw [hentry] at hx
      exact shallow_of_valueOf hx

theorem stores {x : Decimal} (hx : b.Stores p x) : x.Shallow := by
  have hdigits : (p.context.digits : ℤ) ≤ Decimal.maxAdjusted := by
    have hle := p.digits_context_le
    omega
  cases hx with
  | current hx => exact h.currentValue hx
  | negated hx => exact (h.currentValue hx).neg
  | added _ _ hy => exact (Decimal.settles_add _ _ _ hy).kept.shallow hdigits
  | subtracted _ _ hy => exact (Decimal.settles_sub _ _ _ hy).kept.shallow hdigits

theorem actOnMemory {action : MemoryAction} {effect : MemoryEffect}
    (hact : b.actOnMemory p action = .ok (effect, b')) : IsShallow b' := by
  obtain ⟨t, rfl⟩ | ⟨-, memory, rfl, hstores⟩ := actOnMemory_cases hact
  · exact h.setText t
  · exact ⟨h.lastResult, fun m hm => h.stores (hstores m hm)⟩

end IsShallow

theorem Reachable.isShallow (h : Reachable b) : IsShallow b := by
  induction h with
  | empty => exact ⟨by rintro x ⟨⟩, by rintro m ⟨⟩⟩
  | setText t _ ih => exact ih.setText t
  | setResult hx _ ih => exact ⟨fun y hy => Option.some.inj hy ▸ hx, ih.memory⟩
  | @toggleSign b _ ih =>
    obtain ⟨t, ht⟩ := b.exists_setText_toggleSign
    exact ht ▸ ih.setText t
  | percent hp _ ih =>
    obtain ⟨e, x, v, -, -, -, rfl⟩ := exists_of_percent hp
    exact ih.setText _
  | actOnMemory hact _ ih => exact ih.actOnMemory hact

/-! ### What is written -/

theorem exists_of_recall {m : Decimal} (hm : b.memory = some m) (ht : b.text = []) :
    ∃ effect b', b.actOnMemory p .recall = .ok (effect, b') ∧ b'.text = m.write := by
  have hlast : Entry.last? [] = none := rfl
  have htext : (b.recallMemory m).2.text = m.write := by
    unfold recallMemory
    rw [ht, hlast]
    split
    · rfl
    · show b.text ++ m.write = m.write
      rw [ht, List.nil_append]
  refine ⟨(b.recallMemory m).1, (b.recallMemory m).2, ?_, htext⟩
  show (orError .emptyMemory b.memory).map b.recallMemory = _
  rw [hm]
  rfl

/-- Evaluated alone, the number that a recall or a percentage writes has the value it was written
for, rounded to the digits in force; if it shows an exponent, it is refused at its mark. -/
theorem evaluateText_of_written (q : Preferences) :
    (∀ (b : Buffer) (m : Decimal) (p : Preferences), Reachable b → b.memory = some m → m.InRange →
      b.text = [] → ∃ effect b', b.actOnMemory p .recall = .ok (effect, b') ∧
        q.evaluateText b'.text = if m.Positional then .ok (m.round q.context.digits)
          else .error (.trailingToken ['e'])) ∧
    ∀ (b b' : Buffer) (p : Preferences), b.percent p = .ok b' →
      ∃ e x v, Entry.last? b.text = some e ∧ Decimal.read? e.entry = some x ∧
        (((percentBase? p e.before).bind (·.mul x p.context)).getD x).div (Decimal.ofInt 100)
          p.context = some v ∧ b' = b.setText (e.replace v.write) ∧
        q.evaluateText v.write = if v.Positional then .ok (v.round q.context.digits)
          else .error (.trailingToken ['e']) := by
  constructor
  · intro b m p hb hm hr ht
    obtain ⟨effect, b', hrecall, htext⟩ := @exists_of_recall b p m hm ht
    have hs := hb.isShallow.memory m hm
    exact ⟨effect, b', hrecall, by rw [htext, Decimal.evaluateText_write_eq q hr hs]⟩
  · intro b b' p h
    obtain ⟨e, x, v, he, hx, hv, htext⟩ := exists_of_percent h
    have hsettled := Decimal.settles_div _ _ v hv
    have hdigits := p.digits_context_le
    have hs := hsettled.kept.shallow (by omega)
    exact ⟨e, x, v, he, hx, hv, htext, Decimal.evaluateText_write_eq q hsettled.inRange hs⟩

theorem evaluateText_of_written_five :
    (∃ effect b', (⟨[], none, some (Decimal.ofInt 5)⟩ : Buffer).actOnMemory {} .recall =
        .ok (effect, b') ∧
      ({} : Preferences).evaluateText b'.text =
        if (Decimal.ofInt 5).Positional then
          .ok ((Decimal.ofInt 5).round ({} : Preferences).context.digits)
        else .error (.trailingToken ['e'])) ∧
    ∃ b' e x v, (⟨"200".toList, none, none⟩ : Buffer).percent {} = .ok b' ∧
      Entry.last? "200".toList = some e ∧ Decimal.read? e.entry = some x ∧
      (((percentBase? {} e.before).bind (·.mul x ({} : Preferences).context)).getD x).div
        (Decimal.ofInt 100) ({} : Preferences).context = some v ∧
      b' = (⟨"200".toList, none, none⟩ : Buffer).setText (e.replace v.write) ∧
      ({} : Preferences).evaluateText v.write =
        if v.Positional then .ok (v.round ({} : Preferences).context.digits)
        else .error (.trailingToken ['e']) := by
  constructor
  · have hresult : Reachable ((({} : Buffer).setResult (Decimal.ofInt 5)).remember
        (Decimal.ofInt 5)).2 := by
      refine @Reachable.actOnMemory _ _ {} .store {} rfl (.setResult ?_ .empty)
      rw [Decimal.Shallow]
      decide +kernel
    exact (evaluateText_of_written {}).1 _ _ {} (hresult.setText []) rfl (by decide +kernel) rfl
  · obtain ⟨b', hb⟩ : ∃ b', (⟨"200".toList, none, none⟩ : Buffer).percent {} = .ok b' := by
      refine ⟨⟨['2'], none, none⟩, ?_⟩
      have hpercent : ((⟨"200".toList, none, none⟩ : Buffer).percent {}).toOption =
          some ⟨['2'], none, none⟩ := by decide +kernel
      exact toOption_eq_some.mp hpercent
    obtain ⟨e, x, v, hv⟩ := (evaluateText_of_written {}).2 _ b' {} hb
    exact ⟨b', e, x, v, hb, hv⟩

/-- A large number is recalled with an exponent, and then the text has no value. -/
theorem recall_not_read_back :
    ¬∀ (b : Buffer) (m : Decimal) (p q : Preferences), Reachable b → b.memory = some m →
      m.InRange → b.text = [] → ∃ effect b', b.actOnMemory p .recall = .ok (effect, b') ∧
        q.evaluateText b'.text = .ok (m.round q.context.digits) := by
  intro h
  have hread : Decimal.read? "1e2000".toList = some ⟨1, 2000, Or.inr (by decide)⟩ := by
    decide +kernel
  have hentry : entryValue? "1e2000".toList = some ⟨1, 2000, Or.inr (by decide)⟩ := by
    rw [entryValue?, show Entry.last? "1e2000".toList = some ⟨[], "1e2000".toList, []⟩ by decide]
    exact hread
  have hstored : Reachable ⟨"1e2000".toList, none, some ⟨1, 2000, Or.inr (by decide)⟩⟩ := by
    refine @Reachable.actOnMemory ⟨"1e2000".toList, none, none⟩ _ {} .store {} ?_
      (.setText "1e2000".toList .empty)
    show (orError .nothingToStore ((entryValue? "1e2000".toList).orElse _)).map _ = _
    rw [hentry]
    rfl
  have hrange : Decimal.InRange ⟨1, 2000, Or.inr (by decide)⟩ := by decide +kernel
  obtain ⟨effect, b', hrecall, hvalue⟩ := h _ _ {} {} (hstored.setText []) rfl hrange rfl
  obtain ⟨effect', b'', hrecall', htext⟩ := @exists_of_recall
    ⟨[], none, some ⟨1, 2000, Or.inr (by decide)⟩⟩ {} _ rfl rfl
  obtain ⟨-, rfl⟩ := Prod.mk.inj (Except.ok.inj (hrecall.symm.trans hrecall'))
  have hs := (hstored.isShallow).memory _ rfl
  rw [htext, Decimal.evaluateText_write_eq {} hrange hs, if_neg (by decide +kernel)] at hvalue
  cases hvalue

end Buffer

namespace Session

theorem Affects.reachable {s s' : Session} (h : Affects s s') (hb : s.buffer.Reachable) :
    s'.buffer.Reachable := by
  cases h with
  | edited t hbuffer =>
    rw [hbuffer]
    exact hb.setText t
  | remembered hact => exact hb.actOnMemory hact
  | kept hbuffer => rwa [hbuffer]
  | evaluated hx hbuffer =>
    rw [hbuffer]
    exact hb.setResult (Preferences.shallow_of_evaluateText hx)

theorem reachable_run (p : Preferences) (steps : List (UInt64 × Action)) :
    ((start p).run steps).buffer.Reachable := by
  suffices h : ∀ s : Session, s.buffer.Reachable → (s.run steps).buffer.Reachable from
    h (start p) .empty
  induction steps with
  | nil => exact fun s hs => hs
  | cons step rest ih => exact fun s hs => ih _ ((s.affects_act step.1 step.2).reachable hs)

end Session

end DeskCalculator
