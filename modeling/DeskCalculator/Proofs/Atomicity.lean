import DeskCalculator.Proofs.Session

/-!
# Failures change nothing

The keys once more, working on a state that changes under them: assignments one after the other,
and between them exits that leave the state as the assignments so far have made it. Run to their
end, these steps do what the keys do. No exit comes after an assignment. So an operation on
the buffer that fails leaves the text, the last result and the memory as they were, and a key
that reports a failure changes nothing in the session but the notice.
-/

set_option autoImplicit false

namespace DeskCalculator

/-! ### Steps with exits -/

section

variable {ε σ α β : Type} {m : EStateM ε σ α} {f : α → EStateM ε σ β}

/-- Looks at the state, and leaves it alone whether it exits or not. -/
def LooksOnly (m : EStateM ε σ α) : Prop := ∀ s, (∃ a, m s = .ok a s) ∨ ∃ e, m s = .error e s

def Completes (m : EStateM ε σ α) : Prop := ∀ s, ∃ a s', m s = .ok a s'

/-- An exit leaves the state as it was in the beginning. -/
def Atomic (m : EStateM ε σ α) : Prop := ∀ s e s', m s = .error e s' → s' = s

def proceed : Except ε α → EStateM ε σ α
  | .ok a => pure a
  | .error e => throw e

theorem bind_of_ok {s s' : σ} {a : α} (h : m s = .ok a s') : (m >>= f) s = f a s' := by
  show EStateM.bind m f s = _
  rw [EStateM.bind, h]

theorem bind_of_error {s s' : σ} {e : ε} (h : m s = .error e s') : (m >>= f) s = .error e s' := by
  show EStateM.bind m f s = _
  rw [EStateM.bind, h]

@[simp] theorem get_bind {f : σ → EStateM ε σ β} (s : σ) :
    ((get : EStateM ε σ σ) >>= f) s = f s s := rfl

@[simp] theorem proceed_ok_bind (a : α) (s : σ) : (proceed (.ok a) >>= f) s = f a s := rfl

theorem looksOnly_get : LooksOnly (get : EStateM ε σ σ) := fun s => .inl ⟨s, rfl⟩

theorem looksOnly_proceed (r : Except ε α) : LooksOnly (proceed r : EStateM ε σ α) := by
  intro s
  cases r with
  | ok a => exact .inl ⟨a, rfl⟩
  | error e => exact .inr ⟨e, rfl⟩

theorem completes_pure (a : α) : Completes (pure a : EStateM ε σ α) := fun s => ⟨a, s, rfl⟩

theorem completes_get : Completes (get : EStateM ε σ σ) := fun s => ⟨s, s, rfl⟩

theorem completes_modify (g : σ → σ) : Completes (modify g : EStateM ε σ PUnit) :=
  fun s => ⟨⟨⟩, g s, rfl⟩

theorem Completes.bind (h : Completes m) (hf : ∀ a, Completes (f a)) : Completes (m >>= f) := by
  intro s
  obtain ⟨a, s', hs⟩ := h s
  rw [bind_of_ok hs]
  exact hf a s'

theorem Completes.atomic (h : Completes m) : Atomic m := by
  intro s e s' hs
  obtain ⟨a, t, ht⟩ := h s
  rw [ht] at hs
  cases hs

theorem LooksOnly.bind (h : LooksOnly m) (hf : ∀ a, Atomic (f a)) : Atomic (m >>= f) := by
  intro s e s' hs
  rcases h s with ⟨a, ha⟩ | ⟨e', he⟩
  · rw [bind_of_ok ha] at hs
    exact hf a s e s' hs
  · rw [bind_of_error he] at hs
    cases hs
    rfl

theorem Atomic.bind (h : Atomic m) (hf : ∀ a, Completes (f a)) : Atomic (m >>= f) := by
  intro s e s' hs
  cases hm : m s with
  | ok a t =>
    rw [bind_of_ok hm] at hs
    exact absurd hs (by obtain ⟨b, u, hu⟩ := hf a t; simp [hu])
  | error e' t =>
    rw [bind_of_error hm] at hs
    cases hs
    exact h s e s' hm

/-- What comes out in the end, without the state that an exit leaves behind. -/
def outcome : EStateM.Result ε σ α → Except ε (α × σ)
  | .ok a s => .ok (a, s)
  | .error e _ => .error e

theorem outcome_eq_error {r : EStateM.Result ε σ α} {e : ε} :
    outcome r = .error e ↔ ∃ s, r = .error e s := by
  cases r <;> simp [outcome]

end

/-! ### The buffer -/

namespace Buffer

def overwrite (e : Entry) (t : Text) : EStateM BufferError Buffer PUnit := do
  modify fun b => { b with lastResult := none }
  modify fun b => { b with text := e.replace t }

def percentSteps (p : Preferences) : EStateM BufferError Buffer Text := do
  let b ← get
  let e ← proceed (orError .noEntry (Entry.last? b.text))
  let x ← proceed (orError .invalidEntry (Decimal.read? e.entry))
  let scaled := ((percentBase? p e.before).bind (·.mul x p.context)).getD x
  let value ← proceed (orError .invalidEntry (scaled.div (Decimal.ofInt 100) p.context))
  overwrite e value.write
  return (← get).text

def accumulateSteps (p : Preferences) (e : BufferError) (seed : Decimal → Decimal)
    (op : Decimal → Decimal → Option Decimal) : EStateM BufferError Buffer MemoryEffect := do
  let b ← get
  let x ← proceed (orError e (b.currentValue? p))
  let m ← match b.memory with
    | some m => proceed (orError e (op m x))
    | none => pure (seed x)
  modify fun b => { b with memory := some m }
  return {}

def recallSteps : EStateM BufferError Buffer MemoryEffect := do
  let b ← get
  let m ← proceed (orError .emptyMemory b.memory)
  if b.lastResult.isSome then
    modify fun b => { b with text := m.write }
    modify fun b => { b with lastResult := none }
    return { blanksResult := true }
  else
    match Entry.last? b.text with
    | some e =>
      overwrite e m.write
      return {}
    | none =>
      modify fun b => { b with lastResult := none }
      modify fun b => { b with text := b.text ++ m.write }
      return {}

def memorySteps (p : Preferences) : MemoryAction → EStateM BufferError Buffer MemoryEffect
  | .clear => do
    modify fun b => { b with memory := none }
    return { cleared := true }
  | .store => do
    let b ← get
    let x ← proceed (orError .nothingToStore (b.currentValue? p))
    modify fun b => { b with memory := some x }
    return {}
  | .add => accumulateSteps p .nothingToAdd id (·.add · p.context)
  | .subtract => accumulateSteps p .nothingToSubtract (-·) (·.sub · p.context)
  | .recall => recallSteps

variable (b : Buffer) (p : Preferences)

theorem outcome_percentSteps :
    outcome (percentSteps p b) = (b.percent p).map fun b' => (b'.text, b') := by
  rw [percentSteps, get_bind, percent]
  cases Entry.last? b.text with
  | none => rfl
  | some e =>
    simp only [orError, proceed_ok_bind]
    cases Decimal.read? e.entry with
    | none => rfl
    | some x =>
      simp only [proceed_ok_bind]
      cases (((percentBase? p e.before).bind (·.mul x p.context)).getD x).div
        (Decimal.ofInt 100) p.context with
      | none => rfl
      | some value => rfl

theorem outcome_accumulateSteps (e : BufferError) (seed : Decimal → Decimal)
    (op : Decimal → Decimal → Option Decimal) :
    outcome (accumulateSteps p e seed op b) = (do
      let x ← orError e (b.currentValue? p)
      match b.memory with
      | none => return b.remember (seed x)
      | some m => return b.remember (← orError e (op m x))) := by
  rw [accumulateSteps, get_bind]
  cases b.currentValue? p with
  | none => rfl
  | some x =>
    simp only [orError, proceed_ok_bind]
    cases b.memory with
    | none => rfl
    | some m =>
      show outcome ((proceed (orError e (op m x)) >>= _) b) =
        (orError e (op m x) >>= fun y => pure (b.remember y))
      cases op m x with
      | none => rfl
      | some y => rfl

theorem outcome_recallSteps :
    outcome (recallSteps b) = (orError .emptyMemory b.memory).map b.recallMemory := by
  rw [recallSteps, get_bind]
  cases b.memory with
  | none => rfl
  | some m =>
    simp only [orError, proceed_ok_bind, Except.map, recallMemory]
    split
    · rfl
    · cases Entry.last? b.text with
      | none => rfl
      | some e => rfl

theorem outcome_memorySteps (action : MemoryAction) :
    outcome (memorySteps p action b) = b.actOnMemory p action := by
  cases action with
  | clear => rfl
  | store =>
    rw [memorySteps, get_bind, actOnMemory]
    cases b.currentValue? p with
    | none => rfl
    | some x => rfl
  | add => exact outcome_accumulateSteps b p _ _ _
  | subtract => exact outcome_accumulateSteps b p _ _ _
  | «recall» => exact outcome_recallSteps b

/-! No exit comes after an assignment. -/

theorem completes_overwrite (e : Entry) (t : Text) : Completes (overwrite e t) :=
  (completes_modify _).bind fun _ => completes_modify _

theorem atomic_percentSteps : Atomic (percentSteps p) := by
  refine looksOnly_get.bind fun b => (looksOnly_proceed _).bind fun e => ?_
  refine (looksOnly_proceed _).bind fun x => (looksOnly_proceed _).bind fun value => ?_
  refine (Completes.bind (completes_overwrite e _) fun _ => ?_).atomic
  exact completes_get.bind fun _ => completes_pure _

theorem atomic_accumulateSteps (e : BufferError) (seed : Decimal → Decimal)
    (op : Decimal → Decimal → Option Decimal) : Atomic (accumulateSteps p e seed op) := by
  refine looksOnly_get.bind fun b => (looksOnly_proceed _).bind fun x => ?_
  have hkeep : ∀ m : Decimal, Completes (do
      modify fun b : Buffer => { b with memory := some m }
      return ({} : MemoryEffect) : EStateM BufferError Buffer MemoryEffect) :=
    fun m => (completes_modify _).bind fun _ => completes_pure _
  cases b.memory with
  | none => exact (hkeep (seed x)).atomic
  | some m => exact (looksOnly_proceed _).bind fun y => (hkeep y).atomic

theorem atomic_recallSteps : Atomic recallSteps := by
  refine looksOnly_get.bind fun b => (looksOnly_proceed _).bind fun m => ?_
  have hassign : ∀ (g h : Buffer → Buffer) (effect : MemoryEffect), Completes (do
      modify g
      modify h
      return effect : EStateM BufferError Buffer MemoryEffect) := fun g h effect =>
    (completes_modify _).bind fun _ => (completes_modify _).bind fun _ => completes_pure _
  split
  · exact (hassign _ _ _).atomic
  · split
    · exact ((completes_overwrite _ _).bind fun _ => completes_pure _).atomic
    · exact (hassign _ _ _).atomic

theorem atomic_memorySteps (action : MemoryAction) : Atomic (memorySteps p action) := by
  cases action with
  | clear => exact ((completes_modify _).bind fun _ => completes_pure _).atomic
  | store =>
    refine looksOnly_get.bind fun b => (looksOnly_proceed _).bind fun x => ?_
    exact ((completes_modify _).bind fun _ => completes_pure _).atomic
  | add => exact atomic_accumulateSteps p _ _ _
  | subtract => exact atomic_accumulateSteps p _ _ _
  | «recall» => exact atomic_recallSteps

end Buffer

/-! ### The session -/

namespace Session

def onBuffer {α : Type} (m : EStateM BufferError Buffer α) : EStateM Notice Session α := fun s =>
  match m s.buffer with
  | .ok a b => .ok a { s with buffer := b }
  | .error e b => .error (.buffer e) { s with buffer := b }

def calculation {α : Type} (r : Except CalcError α) : EStateM Notice Session α :=
  proceed (r.mapError .calculation)

def evaluateSteps (now : UInt64) : EStateM Notice Session Bool := do
  let s ← get
  let expression := s.buffer.text.trim
  if expression.isEmpty then
    modify fun s => { s with notice := none }
    return false
  else
    calculation (Expr.validate expression)
    let x ← calculation (s.preferences.evaluateText expression)
    modify fun s => { s with result := x.short Decimal.displayDigits }
    modify fun s => { s with notice := none }
    modify fun s => { s with buffer := s.buffer.setResult x }
    modify fun s => { s with history := s.history.add now expression s.result }
    return true

def blankSteps : EStateM Notice Session PUnit := do
  modify fun s => { s with result := [] }
  modify fun s => { s with notice := none }

def pressSteps (now : UInt64) : Key → EStateM Notice Session PUnit
  | .insert text => do
    onBuffer (modify (·.append text))
    modify fun s => { s with notice := none }
  | .delete => onBuffer (modify Buffer.deleteLast)
  | .clearEntry => onBuffer (modify Buffer.clearEntry)
  | .clear => do
    onBuffer (modify Buffer.clear)
    blankSteps
  | .clearAll => do
    onBuffer (modify Buffer.clear)
    modify fun s => { s with history := s.history.clear }
    blankSteps
  | .sign => onBuffer (modify fun b => b.toggleSign.2)
  | .percent => do
    let s ← get
    let _ ← onBuffer (Buffer.percentSteps s.preferences)
    return ⟨⟩
  | .equals => do
    let _ ← evaluateSteps now
    return ⟨⟩
  | .memory action => do
    let s ← get
    let effect ← onBuffer (Buffer.memorySteps s.preferences action)
    if effect.blanksResult then modify fun s => { s with result := [] }
  | .mode mode => modify (·.update { mode := some mode })
  | .second => modify toggleSecond

def report {α : Type} : EStateM.Result Notice Session α → Session
  | .ok _ s => s
  | .error n s => { s with notice := some n }

/-! No exit comes after an assignment here either. -/

theorem atomic_onBuffer {α : Type} {m : EStateM BufferError Buffer α} (h : Atomic m) :
    Atomic (onBuffer m) := by
  intro s n s' hs
  unfold onBuffer at hs
  split at hs
  · cases hs
  · next e b hb =>
    cases hs
    rw [h _ _ _ hb]

theorem completes_onBuffer {α : Type} {m : EStateM BufferError Buffer α} (h : Completes m) :
    Completes (onBuffer m) := by
  intro s
  obtain ⟨a, b, hb⟩ := h s.buffer
  exact ⟨a, { s with buffer := b }, by rw [onBuffer, hb]⟩

theorem completes_blankSteps : Completes blankSteps :=
  (completes_modify _).bind fun _ => completes_modify _

theorem atomic_evaluateSteps (now : UInt64) : Atomic (evaluateSteps now) := by
  refine looksOnly_get.bind fun s => ?_
  simp only
  split
  · exact ((completes_modify _).bind fun _ => completes_pure _).atomic
  · refine (looksOnly_proceed _).bind fun _ => (looksOnly_proceed _).bind fun x => ?_
    refine Completes.atomic ?_
    refine (completes_modify _).bind fun _ => (completes_modify _).bind fun _ => ?_
    exact (completes_modify _).bind fun _ => (completes_modify _).bind fun _ => completes_pure _

theorem atomic_pressSteps (now : UInt64) (key : Key) : Atomic (pressSteps now key) := by
  cases key with
  | insert text =>
    exact ((completes_onBuffer (completes_modify _)).bind fun _ => completes_modify _).atomic
  | delete | clearEntry => exact (completes_onBuffer (completes_modify _)).atomic
  | sign => exact (completes_onBuffer (completes_modify fun b => b.toggleSign.2)).atomic
  | clear =>
    exact ((completes_onBuffer (completes_modify _)).bind fun _ => completes_blankSteps).atomic
  | clearAll =>
    refine Completes.atomic ((completes_onBuffer (completes_modify _)).bind fun _ => ?_)
    exact (completes_modify _).bind fun _ => completes_blankSteps
  | percent =>
    refine looksOnly_get.bind fun s => ?_
    exact (atomic_onBuffer (Buffer.atomic_percentSteps _)).bind fun _ => completes_pure _
  | equals => exact (atomic_evaluateSteps now).bind fun _ => completes_pure _
  | memory action =>
    refine looksOnly_get.bind fun s => ?_
    refine (atomic_onBuffer (Buffer.atomic_memorySteps _ action)).bind fun effect => ?_
    split
    · exact completes_modify _
    · exact completes_pure _
  | mode | second => exact (completes_modify _).atomic

/-! The keys do what their steps do. -/

variable (s : Session) (now : UInt64)

theorem onBuffer_of_ok {α : Type} {m : EStateM BufferError Buffer α} {a : α} {b : Buffer}
    (h : outcome (m s.buffer) = .ok (a, b)) : onBuffer m s = .ok a { s with buffer := b } := by
  unfold onBuffer
  cases hm : m s.buffer <;> rw [hm] at h <;> cases h
  rfl

theorem onBuffer_of_error {α : Type} {m : EStateM BufferError Buffer α} {e : BufferError}
    (hm : Atomic m) (h : outcome (m s.buffer) = .error e) :
    onBuffer m s = .error (.buffer e) s := by
  obtain ⟨b, hb⟩ := outcome_eq_error.mp h
  rw [onBuffer, hb, hm _ _ _ hb]

theorem report_bind_pure {α : Type} (m : EStateM Notice Session α) :
    report ((m >>= fun _ => pure PUnit.unit) s) = report (m s) := by
  cases h : m s with
  | ok a s' => rw [bind_of_ok h]; rfl
  | error n s' => rw [bind_of_error h]; rfl

theorem report_evaluateSteps : report (evaluateSteps now s) = (s.evaluate now).2 := by
  rw [evaluateSteps, get_bind, evaluate]
  simp only
  split
  · rfl
  · rw [calculate, calculation, calculation]
    cases Expr.validate s.buffer.text.trim with
    | error e => rfl
    | ok _ =>
      simp only [Except.mapError, proceed_ok_bind]
      show report ((proceed (Except.mapError _ _) >>= _) s) = _
      cases s.preferences.evaluateText s.buffer.text.trim with
      | error e => rfl
      | ok x => rfl

theorem report_percentSteps : report (pressSteps now .percent s) = s.press now .percent := by
  have h := s.buffer.outcome_percentSteps s.preferences
  rw [pressSteps, get_bind, report_bind_pure, press]
  cases hb : s.buffer.percent s.preferences with
  | error e =>
    rw [hb] at h
    rw [onBuffer_of_error s (Buffer.atomic_percentSteps _) h]
    rfl
  | ok b =>
    rw [hb] at h
    rw [onBuffer_of_ok s h]
    rfl

theorem report_memorySteps (action : MemoryAction) :
    report (pressSteps now (.memory action) s) = s.actOnMemory action := by
  have h := s.buffer.outcome_memorySteps s.preferences action
  rw [pressSteps, get_bind, actOnMemory]
  cases hb : s.buffer.actOnMemory s.preferences action with
  | error e =>
    rw [hb] at h
    rw [bind_of_error (onBuffer_of_error s (Buffer.atomic_memorySteps _ action) h)]
    rfl
  | ok r =>
    rw [hb] at h
    rw [bind_of_ok (onBuffer_of_ok s h)]
    simp only
    split <;> rfl

theorem report_pressSteps (key : Key) : report (pressSteps now key s) = s.press now key := by
  cases key with
  | insert | delete | clearEntry | clear | clearAll | sign | mode | second => rfl
  | percent => exact s.report_percentSteps now
  | equals => rw [pressSteps, report_bind_pure, report_evaluateSteps, press]
  | memory action => exact s.report_memorySteps now action

theorem press_cases (key : Key) : (s.press now key).notice = none ∨
    (s.press now key).notice = s.notice ∨ ∃ n, s.press now key = { s with notice := some n } := by
  cases key with
  | insert | clear | clearAll => exact .inl rfl
  | delete | clearEntry | sign | second | mode => exact .inr (.inl rfl)
  | percent =>
    unfold press
    simp only
    split
    · exact .inr (.inr ⟨_, rfl⟩)
    · exact .inr (.inl rfl)
  | equals =>
    unfold press evaluate
    simp only
    split
    · exact .inl rfl
    · split
      · exact .inr (.inr ⟨_, rfl⟩)
      · exact .inl rfl
  | memory action =>
    unfold press actOnMemory
    simp only
    split
    · exact .inr (.inr ⟨_, rfl⟩)
    · exact .inr (.inl rfl)

/-- However a session went on from its start, a key whose steps end in a failure changes nothing
but the notice, which names the failure; and whichever key brings a new notice changes nothing
else. On any buffer the operations that can fail leave all of it as it was if they do. -/
theorem press_of_failure (p : Preferences) (past : List (UInt64 × Action)) (now : UInt64) (key : Key) :
    let s := (start p).run past
    (∀ n s', pressSteps now key s = .error n s' →
      s' = s ∧ s.press now key = { s with notice := some n }) ∧
    (∀ n, (s.press now key).notice = some n →
      s.notice = some n ∨ s.press now key = { s with notice := some n }) ∧
    ∀ (b : Buffer) (q : Preferences),
      (∀ e b', Buffer.percentSteps q b = .error e b' → b' = b ∧ b.percent q = .error e) ∧
      ∀ action e b', Buffer.memorySteps q action b = .error e b' →
        b' = b ∧ b.actOnMemory q action = .error e := by
  intro s
  refine ⟨fun n s' h => ?_, fun n h => ?_, fun b q => ⟨fun e b' h => ?_, fun action e b' h => ?_⟩⟩
  · obtain rfl := atomic_pressSteps now key s n s' h
    exact ⟨rfl, by rw [← report_pressSteps, h, report]⟩
  · rcases s.press_cases now key with hnone | hkept | ⟨m, hm⟩
    · rw [hnone] at h
      cases h
    · exact .inl (hkept ▸ h)
    · rw [hm] at h
      exact .inr (hm.trans (by rw [← h]))
  · refine ⟨Buffer.atomic_percentSteps q b e b' h, ?_⟩
    have houtcome := b.outcome_percentSteps q
    rw [h] at houtcome
    exact map_eq_error.mp houtcome.symm
  · refine ⟨Buffer.atomic_memorySteps q action b e b' h, ?_⟩
    rw [← Buffer.outcome_memorySteps, h, outcome]

theorem press_of_failure_incomplete_sum :
    let past : List (UInt64 × Action) := [(1, .press (.insert "1+2".toList)), (2, .evaluate),
      (3, .press .clear), (4, .press (.insert "2+".toList))]
    let s := (start {}).run past
    pressSteps 5 .equals s = .error (.calculation .unexpectedEnd) s ∧
      s.press 5 .equals = { s with notice := some (.calculation .unexpectedEnd) } := by
  intro past s
  have htext : s.buffer.text.trim = "2+".toList := by
    show Text.trim "2+".toList = "2+".toList
    decide
  have hvalidate : Expr.validate "2+".toList = .error .unexpectedEnd := by cbv
  have hsteps : evaluateSteps 5 s = .error (.calculation .unexpectedEnd) s := by
    rw [evaluateSteps, get_bind]
    simp only [htext, hvalidate]
    rfl
  have h : pressSteps 5 .equals s = .error (.calculation .unexpectedEnd) s := bind_of_error hsteps
  exact ⟨h, ((press_of_failure {} past 5 .equals).1 _ _ h).2⟩

end Session

end DeskCalculator
