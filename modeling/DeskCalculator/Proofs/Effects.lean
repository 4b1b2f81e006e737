import DeskCalculator.Desk.Buffer
import DeskCalculator.Proofs.Outcome

/-!
# What the operations on a buffer do

Clearing the last entry, changing its sign, taking a percentage and recalling the memory
put another text in, and with it the last result is forgotten. The other memory actions
leave both as they are, and the memory gets a value that the buffer already shows or holds,
or the outcome of one operation on two such values.
-/

set_option autoImplicit false

namespace DeskCalculator

namespace Buffer

theorem exists_setText_clearEntry (b : Buffer) : ∃ t, b.clearEntry = b.setText t := by
  unfold clearEntry
  split
  · exact ⟨_, rfl⟩
  · exact ⟨[], rfl⟩

theorem exists_setText_toggleSign (b : Buffer) : ∃ t, b.toggleSign.2 = b.setText t := by
  unfold toggleSign
  split
  · exact ⟨_, rfl⟩
  · exact ⟨b.text, rfl⟩

theorem exists_setText_recallMemory (b : Buffer) (m : Decimal) :
    ∃ t, (b.recallMemory m).2 = b.setText t := by
  unfold recallMemory
  split
  · exact ⟨_, rfl⟩
  · split <;> exact ⟨_, rfl⟩

variable {b b' : Buffer} {p : Preferences}

theorem exists_of_percent (h : b.percent p = .ok b') : ∃ e x v, Entry.last? b.text = some e ∧
    Decimal.read? e.entry = some x ∧
    (((percentBase? p e.before).bind (·.mul x p.context)).getD x).div (Decimal.ofInt 100)
      p.context = some v ∧ b' = b.setText (e.replace v.write) := by
  unfold percent at h
  split at h
  · cases h
  · next e he =>
    split at h
    · cases h
    · next x hx =>
      simp only at h
      split at h
      · cases h
      · next v hv => exact ⟨e, x, v, he, hx, hv, (Except.ok.inj h).symm⟩

theorem orError_eq_ok {α : Type} {e : BufferError} {o : Option α} {a : α} :
    orError e o = .ok a ↔ o = some a := by
  cases o <;> simp [orError]

/-- The values that the keys can put into the memory. -/
inductive Stores (b : Buffer) (p : Preferences) : Decimal → Prop
  | current {x : Decimal} : b.currentValue? p = some x → Stores b p x
  | negated {x : Decimal} : b.currentValue? p = some x → Stores b p (-x)
  | added {m x y : Decimal} : b.memory = some m → b.currentValue? p = some x →
      m.add x p.context = some y → Stores b p y
  | subtracted {m x y : Decimal} : b.memory = some m → b.currentValue? p = some x →
      m.sub x p.context = some y → Stores b p y

theorem actOnMemory_cases {action : MemoryAction} {effect : MemoryEffect}
    (h : b.actOnMemory p action = .ok (effect, b')) :
    (∃ t, b' = b.setText t) ∨ effect.blanksResult = false ∧
      ∃ memory, b' = { b with memory := memory } ∧ ∀ m, memory = some m → b.Stores p m := by
  have hremember : ∀ x, b.Stores p x → b.remember x = (effect, b') → effect.blanksResult = false ∧
      ∃ memory, b' = { b with memory := memory } ∧ ∀ m, memory = some m → b.Stores p m := by
    rintro x hs ⟨⟩
    exact ⟨rfl, some x, rfl, fun m hm => Option.some.inj hm ▸ hs⟩
  cases action with
  | clear =>
    cases h
    exact .inr ⟨rfl, none, rfl, by rintro m ⟨⟩⟩
  | store =>
    obtain ⟨x, hx, h⟩ := map_eq_ok.mp h
    exact .inr (hremember x (.current (orError_eq_ok.mp hx)) h)
  | add =>
    obtain ⟨x, hx, h⟩ := bind_eq_ok.mp h
    have hx := orError_eq_ok.mp hx
    split at h
    · exact .inr (hremember x (.current hx) (Except.ok.inj h))
    · next m hm =>
      obtain ⟨y, hy, h⟩ := bind_eq_ok.mp h
      exact .inr (hremember y (.added hm hx (orError_eq_ok.mp hy)) (Except.ok.inj h))
  | subtract =>
    obtain ⟨x, hx, h⟩ := bind_eq_ok.mp h
    have hx := orError_eq_ok.mp hx
    split at h
    · exact .inr (hremember (-x) (.negated hx) (Except.ok.inj h))
    · next m hm =>
      obtain ⟨y, hy, h⟩ := bind_eq_ok.mp h
      exact .inr (hremember y (.subtracted hm hx (orError_eq_ok.mp hy)) (Except.ok.inj h))
  | «recall» =>
    obtain ⟨m, -, h⟩ := map_eq_ok.mp h
    obtain ⟨t, ht⟩ := b.exists_setText_recallMemory m
    exact .inl ⟨t, (congrArg Prod.snd h).symm.trans ht⟩

end Buffer

end DeskCalculator
