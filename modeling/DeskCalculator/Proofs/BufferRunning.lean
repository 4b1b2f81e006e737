import DeskCalculator.Proofs.BufferPositions
import DeskCalculator.Proofs.RunningEvaluation

/-!
# The operations on a buffer in a running program

An operation evaluates one expression at most, so in a running program it does what it does with
the value that this expression comes to there. It breaks the program off where that evaluation
does, and where the place of a digit of the last entry leaves the 64 bits that count it. With short
entries and up to 2.8 · 10⁹ digits no sequence of operations gets there.
-/

set_option autoImplicit false

namespace DeskCalculator

open DeskCalculator.FixedPoint DeskCalculator.FixedPoint.Constants
open Entry Text

namespace Buffer

/-! ### One operation -/

section
variable {α : Type} {needs : Needs} {p : Preferences}
  {result : (Text → Except CalcError Decimal) → α} {known kept : Constants} {a : α}

theorem meet_cases (h : (needs.meet p result).run known = some (a, kept)) :
    a = result p.evaluateText ∧ needs.expression = none ∧ kept = known ∨
      ∃ t value, needs.expression = some t ∧
        (p.evaluateTextRunning t).run known = some (value, kept) ∧ a = result fun _ => value := by
  unfold Needs.meet at h
  split at h
  · split at h
    · next hnone =>
      cases h
      exact .inl ⟨rfl, hnone, rfl⟩
    · next t hsome =>
      obtain ⟨⟨value, later⟩, hrun, hvalue⟩ := Option.bind_eq_some_iff.mp h
      cases hvalue
      exact .inr ⟨t, value, hsome, hrun, rfl⟩
  · cases h

theorem exists_meet (hwords : ∀ entry ∈ needs.entry, Decimal.readsInWords entry = true)
    (hprecision : p.precision ≤ 2800000000) (hknown : known.Sound) :
    ∃ a kept, (needs.meet p result).run known = some (a, kept) ∧ kept.Sound := by
  have hall : needs.entry.all Decimal.readsInWords = true := by
    cases hentry : needs.entry with
    | none => rfl
    | some entry => exact hwords entry (by rw [hentry]; rfl)
  unfold Needs.meet
  rw [if_pos hall]
  cases needs.expression with
  | none => exact ⟨_, known, rfl, hknown⟩
  | some t =>
    have hserves := serves_sound (p.mostAsked_add_lt hprecision)
    obtain ⟨value, kept, hrun, hkept, -⟩ := p.follows_evaluateText hserves le_rfl t known hknown
    exact ⟨_, kept, Option.bind_eq_some_iff.mpr ⟨_, hrun, rfl⟩, hkept⟩

end

/-! ### Calls -/

def Call.map {ε ε' : Type} (f : ε → ε') : Call ε → Call ε'
  | append t => append t
  | setText t => setText t
  | setResult x => setResult x
  | deleteLast => deleteLast
  | clear => clear
  | clearEntry => clearEntry
  | toggleSign => toggleSign
  | percent engine => percent (f engine)
  | currentValue engine => currentValue (f engine)
  | memory engine action => memory (f engine) action

def replyRunning (b : Buffer) : Call Preferences → StateT Constants Option (Answer × Buffer)
  | .percent p => do return b.replyPercent (← b.percentRunning p)
  | .currentValue p => do return (.value (← b.currentValueRunning? p), b)
  | .memory p action => do return b.replyMemory (← b.actOnMemoryRunning p action)
  | call => return b.reply (call.map (·.calculator))

def repliesRunning (b : Buffer) :
    List (Call Preferences) → StateT Constants Option (List Answer × Buffer)
  | [] => return ([], b)
  | call :: rest => do
    let (answer, b') ← b.replyRunning call
    let (others, b'') ← b'.repliesRunning rest
    return (answer :: others, b'')

/-- With calculators that give texts some values, the operations of a running program. -/
def Answered (call : Call Preferences) (call' : Call Calculator) : Prop :=
  ∃ value : Text → Except CalcError Decimal, call' = call.map fun p => p.calculator value

/-- The last entry is a numeral whose places 64 bits count, and 32 bits count the digits of the
text and those that an evaluation asks for. -/
structure Ready (b : Buffer) (p : Preferences) : Prop where
  length_lt : b.text.length < UInt32.size
  words : ∀ e ∈ last? b.text, Decimal.readsInWords e.entry = true
  precision_le : p.precision ≤ 2800000000

def Call.Ready (b : Buffer) : Call Preferences → Prop
  | percent p | currentValue p | memory p _ => b.Ready p
  | _ => True

def AllReady (b : Buffer) (known : Constants) : List (Call Preferences) → Prop
  | [] => True
  | call :: rest => call.Ready b ∧
    ∀ r kept, (b.replyRunning call).run known = some (r, kept) → r.2.AllReady kept rest

section
variable {b : Buffer} {p : Preferences} {known kept : Constants}

theorem exists_answered {call : Call Preferences} {r : Answer × Buffer}
    (h : (b.replyRunning call).run known = some (r, kept)) :
    ∃ call', Answered call call' ∧ r = b.reply call' := by
  have hmeet : ∀ {α : Type} {needs : Needs} {result : (Text → Except CalcError Decimal) → α}
      {f : α → Answer × Buffer} {p : Preferences},
      (do return f (← needs.meet p result) : StateT Constants Option _).run known =
        some (r, kept) → ∃ value, r = f (result value) := by
    intro α needs result f p hrun
    obtain ⟨⟨a, later⟩, hrun, ha⟩ := Option.bind_eq_some_iff.mp hrun
    cases ha
    obtain ⟨rfl, -⟩ | ⟨_, value, -, -, rfl⟩ := meet_cases hrun
    · exact ⟨_, rfl⟩
    · exact ⟨_, rfl⟩
  cases call with
  | percent p =>
    obtain ⟨value, rfl⟩ := hmeet h
    exact ⟨_, ⟨value, rfl⟩, by rw [Call.map, reply, (b.with_calculator p value).1]⟩
  | currentValue p =>
    obtain ⟨value, rfl⟩ := hmeet h
    exact ⟨_, ⟨value, rfl⟩, rfl⟩
  | memory p action =>
    obtain ⟨value, rfl⟩ := hmeet h
    exact ⟨_, ⟨value, rfl⟩, by rw [Call.map, reply, (b.with_calculator p value).2.2]⟩
  | append | setText | setResult | deleteLast | clear | clearEntry | toggleSign =>
    cases h
    exact ⟨_, ⟨fun _ => .error .outOfRange, rfl⟩, rfl⟩

theorem exists_answered_all {calls : List (Call Preferences)} {r : List Answer × Buffer}
    (h : (b.repliesRunning calls).run known = some (r, kept)) :
    ∃ calls', List.Forall₂ Answered calls calls' ∧ r = b.replies calls' := by
  induction calls generalizing b known r with
  | nil =>
    cases h
    exact ⟨[], .nil, rfl⟩
  | cons call rest ih =>
    obtain ⟨⟨⟨answer, b'⟩, between⟩, hfirst, h⟩ := Option.bind_eq_some_iff.mp h
    obtain ⟨⟨⟨others, b''⟩, later⟩, hrest, h⟩ := Option.bind_eq_some_iff.mp h
    cases h
    obtain ⟨call', hcall, hanswer⟩ := exists_answered hfirst
    obtain ⟨calls', hcalls, hothers⟩ := ih hrest
    refine ⟨call' :: calls', .cons hcall hcalls, ?_⟩
    rw [replies, ← hanswer, ← hothers]

theorem words_percentNeeds (hb : b.Ready p) :
    ∀ entry ∈ b.percentNeeds.entry, Decimal.readsInWords entry = true := by
  intro entry hentry
  unfold percentNeeds at hentry
  split at hentry
  · cases hentry
  · next e he =>
    cases hentry
    exact hb.words e he

theorem words_currentNeeds (hb : b.Ready p) :
    ∀ entry ∈ b.currentNeeds.entry, Decimal.readsInWords entry = true := by
  intro entry hentry
  unfold currentNeeds at hentry
  split at hentry
  · cases hentry
  · obtain ⟨e, he, rfl⟩ := Option.map_eq_some_iff.mp hentry
    exact hb.words e he

theorem words_memoryNeeds (hb : b.Ready p) (action : MemoryAction) :
    ∀ entry ∈ (b.memoryNeeds action).entry, Decimal.readsInWords entry = true := by
  cases action with
  | store | add | subtract => exact words_currentNeeds hb
  | clear | «recall» => exact fun entry hentry => nomatch hentry

theorem exists_replyRunning {call : Call Preferences} (hready : call.Ready b)
    (hknown : known.Sound) :
    ∃ r kept, (b.replyRunning call).run known = some (r, kept) ∧ kept.Sound := by
  have hmeet : ∀ {α : Type} {needs : Needs} {result : (Text → Except CalcError Decimal) → α}
      {f : α → Answer × Buffer} {p : Preferences}, b.Ready p →
      (∀ entry ∈ needs.entry, Decimal.readsInWords entry = true) →
      ∃ r kept, (do return f (← needs.meet p result) : StateT Constants Option _).run known =
        some (r, kept) ∧ kept.Sound := by
    intro α needs result f p hb hwords
    obtain ⟨a, kept, hrun, hkept⟩ :
        ∃ a kept, (needs.meet p result).run known = some (a, kept) ∧ kept.Sound :=
      exists_meet hwords hb.precision_le hknown
    exact ⟨f a, kept, Option.bind_eq_some_iff.mpr ⟨_, hrun, rfl⟩, hkept⟩
  cases call with
  | percent p => exact hmeet hready (words_percentNeeds hready)
  | currentValue p => exact hmeet hready (words_currentNeeds hready)
  | memory p action => exact hmeet hready (words_memoryNeeds hready action)
  | append | setText | setResult | deleteLast | clear | clearEntry | toggleSign =>
    exact ⟨_, known, rfl, hknown⟩

theorem exists_repliesRunning {calls : List (Call Preferences)} (hready : b.AllReady known calls)
    (hknown : known.Sound) :
    ∃ r kept, (b.repliesRunning calls).run known = some (r, kept) ∧ kept.Sound := by
  induction calls generalizing b known with
  | nil => exact ⟨_, known, rfl, hknown⟩
  | cons call rest ih =>
    obtain ⟨⟨answer, b'⟩, between, hfirst, hbetween⟩ := exists_replyRunning hready.1 hknown
    obtain ⟨⟨others, b''⟩, kept, hrest, hkept⟩ := ih (hready.2 _ _ hfirst) hbetween
    refine ⟨(answer :: others, b''), kept, ?_, hkept⟩
    exact Option.bind_eq_some_iff.mpr ⟨_, hfirst, Option.bind_eq_some_iff.mpr ⟨_, hrest, rfl⟩⟩

end

end Buffer

/-! ### Nothing goes wrong with short numbers -/

/-- The scans over any text use positions where there are some, and find the bounds of the last
entry, an operator before any limit, and the operand before that. With any calculators, any
operations on any buffer come to an end, and with those of preferences they are the operations under
these preferences, which use no primitive where it is not defined. In a running program a run of
operations that it does not break off is such a run; and it breaks none off if the places of the
entries are counted in 64 bits, and the digits asked for in 32. -/
theorem positions_safe (t : Text) (b : Buffer) (p : Preferences) (known : Constants) :
    ((last? t).isSome ↔
        ∃ c ∈ (t.rdropWhile (· = ' ')).getLast?, isEntryCharacter c = true) ∧
    boundsSteps t = .ok ((last? t).map fun e => (e.start, e.stop)) ∧
    (∀ e ∈ last? t, Delimits t e.start e.stop) ∧
    (∀ limit : ℕ, operatorSteps t limit = .ok (operatorBefore? t limit) ∧
      ∀ position ∈ operatorBefore? t limit, position < limit ∧ t.IsBoundary position ∧
        operandSteps t position = .ok (operandBefore? t position)) ∧
    (∀ calls : List (Buffer.Call Calculator), b.repliesAt calls = .ok (b.replies calls)) ∧
    (∀ value : Text → Except CalcError Decimal,
      b.percentWith (p.calculator value) = b.percent p value ∧
      b.currentValueWith? (p.calculator value) = b.currentValue? p value ∧
      ∀ action, b.actOnMemoryWith (p.calculator value) action = b.actOnMemory p action value) ∧
    Steps.Realizes (p.evaluateTextSteps t) (p.evaluateText t) ∧
    (∀ misuse, p.evaluateTextSteps t ≠ .error (.undefined misuse)) ∧
    (∀ op : Operation, Steps.Realizes (op.steps p.context) (op.outcome p.context) ∧
      ∀ misuse, op.steps p.context ≠ .error (.undefined misuse)) ∧
    ∀ calls : List (Buffer.Call Preferences),
      (∀ r kept, (b.repliesRunning calls).run known = some (r, kept) →
        ∃ calls', List.Forall₂ Buffer.Answered calls calls' ∧ b.repliesAt calls' = .ok r) ∧
      (known.Sound → b.AllReady known calls →
        ∃ r kept, (b.repliesRunning calls).run known = some (r, kept) ∧ kept.Sound) := by
  refine ⟨isSome_last?_iff t, boundsSteps_eq t, fun e he => delimits_of_last? he,
    fun limit => ⟨operatorSteps_eq t limit, fun position hposition => ?_⟩, b.repliesAt_eq,
    b.with_calculator p, p.realizes_evaluateText t, (p.realizes_evaluateText t).ne_undefined,
    fun op => ⟨op.realizes_outcome p.sound_known,
      (op.realizes_outcome p.sound_known).ne_undefined⟩,
    fun calls => ⟨fun r kept hrun => ?_,
      fun hknown hready => Buffer.exists_repliesRunning hready hknown⟩⟩
  · obtain ⟨left, c, right, rfl, -, rfl, hlt⟩ := exists_of_operatorBefore? hposition
    refine ⟨hlt, isBoundary_append left (c :: right), ?_⟩
    rw [operandSteps_append, operandBefore?_append]
  · obtain ⟨calls', hcalls, rfl⟩ := Buffer.exists_answered_all hrun
    exact ⟨calls', hcalls, b.repliesAt_eq calls'⟩

/-- A character of two bytes stands before the operator. -/
theorem positions_safe_instance :
    last? "2é+50  ".toList = some ⟨"2é+".toList, "50".toList, "  ".toList⟩ ∧
      Delimits "2é+50  ".toList 4 6 ∧ operatorBefore? "2é+50  ".toList 4 = some 3 ∧
      Text.IsBoundary "2é+50  ".toList 3 ∧
      operandSteps "2é+50  ".toList 3 = .ok (some "2é".toList) ∧
      ∃ r kept, (Buffer.repliesRunning {} [.append "2é+50  ".toList, .percent {}]).run {} =
        some (r, kept) := by
  have hlast : last? "2é+50  ".toList = some ⟨"2é+".toList, "50".toList, "  ".toList⟩ := by decide
  have hoperator : operatorBefore? "2é+50  ".toList 4 = some 3 := by decide
  have hoperand : operandBefore? "2é+50  ".toList 3 = some "2é".toList := by decide
  obtain ⟨-, -, hdelimits, hscans, -, -, -, -, -, hruns⟩ :=
    positions_safe "2é+50  ".toList {} {} {}
  obtain ⟨-, hboundary, hsteps⟩ := (hscans 4).2 3 hoperator
  have hready : Buffer.AllReady {} {} [.append "2é+50  ".toList, .percent {}] := by
    refine ⟨trivial, ?_⟩
    rintro _ kept ⟨⟩
    refine ⟨⟨by decide, fun e he => ?_, by decide⟩, fun _ _ _ => trivial⟩
    obtain rfl : _ = e := Option.some.inj (hlast.symm.trans he)
    decide +kernel
  have hsound : Constants.Sound {} := ({} : Preferences).sound_known
  obtain ⟨r, kept, hrun, -⟩ := (hruns _).2 hsound hready
  exact ⟨hlast, hdelimits _ hlast, hoperator, hboundary, hoperand ▸ hsteps, r, kept, hrun⟩

theorem store_breaks_off {t : Text} {p : Preferences} {known : Constants}
    (hlast : last? t = none) (hvalid : Expr.validate t.trim = .ok ())
    (h : (p.evaluateTextRunning t.trim).run known = none) :
    (Buffer.actOnMemoryRunning ⟨t, none, none⟩ p .store).run known = none := by
  have hneeds : Buffer.memoryNeeds ⟨t, none, none⟩ .store = { expression := some t.trim } := by
    simp only [Buffer.memoryNeeds, Buffer.currentNeeds, Buffer.entryValue?, hlast,
      Buffer.expression?, hvalid]
    rfl
  rw [Buffer.actOnMemoryRunning, hneeds]
  exact Option.bind_eq_none_iff.mpr fun r hr => by rw [h] at hr; cases hr

theorem percent_breaks_off {t : Text} {p : Preferences} {known : Constants} {e : Entry}
    (hlast : last? t = some e) (h : Decimal.readsInWords e.entry = false) :
    (Buffer.percentRunning ⟨t, none, none⟩ p).run known = none := by
  have hwords : (Buffer.percentNeeds ⟨t, none, none⟩).entry.all Decimal.readsInWords = false := by
    simp only [Buffer.percentNeeds, hlast, Option.all_some, h]
  unfold Buffer.percentRunning Buffer.Needs.meet
  rw [hwords]
  rfl

/-- The exponential breaks the program off; and so does an exponent that 64 bits hold, but not the
place of the leading digit that it gives. -/
theorem operations_break_off :
    (Buffer.actOnMemoryRunning ⟨"0*exp(40000000000)".toList, none, none⟩
        { precision := 4294967265 } .store).run {} = none ∧
      (Buffer.percentRunning ⟨"12e9223372036854775807".toList, none, none⟩ {}).run {} = none := by
  have htrim : Text.trim "0*exp(40000000000)".toList = "0*exp(40000000000)".toList := by decide
  refine ⟨store_breaks_off (by decide) ?_ ?_, percent_breaks_off
    (show _ = some ⟨[], "12e9223372036854775807".toList, []⟩ by decide) (by decide +kernel)⟩
  · rw [htrim]
    exact Expr.validate_zero_times_exp
  · rw [htrim]
    exact Expr.run_zero_times_exp

end DeskCalculator
