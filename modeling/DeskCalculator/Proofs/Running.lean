import DeskCalculator.Proofs.Outcome
import DeskCalculator.Proofs.SeriesSteps
import DeskCalculator.Running

/-!
# Rules for calculations in a running program

A calculation in steps breaks off where one of its steps does. A running calculation follows one
without a program if from all digits that may be kept the program goes on, and comes to the same
outcome where the kept digits answer as they are computed. Steps that follow others make a whole
that follows the whole.
-/

set_option autoImplicit false

namespace DeskCalculator

open DeskCalculator.FixedPoint

variable {α β : Type}

/-! ### The constants that are kept -/

namespace FixedPoint.Constants

/-- Kept digits that were computed, and that requests of at most `limit` digits keep so. -/
structure Serves (limit : ℕ) (keeps : Constants → Prop) : Prop where
  sound {known : Constants} : keeps known → known.Sound
  after {known : Constants} {asked : Ask} : keeps known → asked.digits ≤ limit →
    keeps (known.after asked)
  room : limit + extraDigits < UInt32.size

/-- Requests of at most `limit` digits are answered alike from all that may be kept. -/
def AnswersAs (limit : ℕ) (keeps : Constants → Prop) (reference : Constants) : Prop :=
  ∀ known, keeps known → ∀ asked : Ask, asked.digits ≤ limit →
    known.answer asked = reference.answer asked

variable {limit : ℕ} {known : Constants} {asked : Ask}

theorem answer_after (known : Constants) (asked : Ask) :
    (known.after asked).answer asked = known.answer asked := by
  obtain ⟨constant, digits, divides⟩ := asked
  cases constant with
  | pi => exact request_request computePi known.pi digits
  | ln10 => exact request_request computeLn10 known.ln10 digits

theorem Sound.after (h : known.Sound) (hdigits : asked.digits + extraDigits < UInt32.size) :
    (known.after asked).Sound := by
  obtain ⟨constant, digits, divides⟩ := asked
  cases constant with
  | pi => exact ⟨h.pi.request digits, h.ln10, h.counted_pi.request hdigits, h.counted_ln10⟩
  | ln10 => exact ⟨h.pi, h.ln10.request digits, h.counted_pi, h.counted_ln10.request hdigits⟩

theorem serves_sound (room : limit + extraDigits < UInt32.size) : Serves limit Sound where
  sound := id
  after h hdigits := h.after (by omega)
  room := room

theorem Sound.answer_pos (h : known.Sound) (hpos : 0 < asked.digits)
    (hdigits : asked.digits + extraDigits < UInt32.size) : 0 < known.answer asked := by
  obtain ⟨constant, digits, divides⟩ := asked
  cases constant with
  | pi => exact piDigits_pos h hpos hdigits
  | ln10 => exact ln10Digits_pos h hdigits

end FixedPoint.Constants

namespace Running

open FixedPoint.Constants

variable {m : Running α} {f : α → Running β}

/-! ### Steps one after the other -/

theorem run_bind_ok {a : α} {known kept : Constants} (h : m.run known = some (.ok a, kept)) :
    (m >>= f).run known = (f a).run kept := by
  show (m.run known).bind _ = _
  rw [h]
  rfl

theorem run_bind_error {e : CalcError} {known kept : Constants}
    (h : m.run known = some (.error e, kept)) : (m >>= f).run known = some (.error e, kept) := by
  show (m.run known).bind _ = _
  rw [h]
  rfl

theorem run_bind_eq_none {known : Constants} (h : m.run known = none) :
    (m >>= f).run known = none := by
  show (m.run known).bind _ = _
  rw [h]
  rfl

theorem run_bind_cases {r : Except CalcError β} {known kept : Constants}
    (h : (m >>= f).run known = some (r, kept)) :
    (∃ a between, m.run known = some (.ok a, between) ∧ (f a).run between = some (r, kept)) ∨
      ∃ e, m.run known = some (.error e, kept) ∧ r = .error e := by
  cases hm : m.run known with
  | none =>
    rw [run_bind_eq_none hm] at h
    cases h
  | some first =>
    obtain ⟨_ | _, between⟩ := first
    · rw [run_bind_error hm] at h
      cases h
      exact .inr ⟨_, rfl, rfl⟩
    · rw [run_bind_ok hm] at h
      exact .inl ⟨_, between, rfl, h⟩

theorem run_asking_cases {asked : Option Ask} {outcome : Constants → Except CalcError α}
    {r : Except CalcError α} {known kept : Constants}
    (h : (asking asked outcome).run known = some (r, kept)) : r = outcome kept := by
  unfold asking at h
  cases asked with
  | none =>
    cases h
    rfl
  | some a =>
    simp only [ExceptT.run_mk] at h
    split at h
    · cases h
    · cases h
      rfl

/-! ### Following a calculation without a program -/

/-- From what may be kept the program goes on, and keeps what may be kept. A value has the
property `P`, and where `exact` holds the outcome is `o`. -/
def Follows (keeps : Constants → Prop) (exact : Prop) (P : α → Prop) (m : Running α)
    (o : Except CalcError α) : Prop :=
  ∀ known, keeps known → ∃ r kept, m.run known = some (r, kept) ∧ keeps kept ∧
    (∀ a, r = .ok a → P a) ∧ (exact → r = o)

variable {keeps : Constants → Prop} {exact : Prop} {P P' : α → Prop} {Q : β → Prop}
  {o : Except CalcError α} {g : α → Except CalcError β}

theorem follows_ofOutcome (h : ∀ a, o = .ok a → P a) : Follows keeps exact P (ofOutcome o) o :=
  fun known hknown => ⟨o, known, rfl, hknown, h, fun _ => rfl⟩

theorem follows_pure {a : α} (h : P a) : Follows keeps exact P (pure a) (.ok a) :=
  follows_ofOutcome (by rintro _ ⟨⟩; exact h)

theorem follows_throw (e : CalcError) : Follows keeps exact P (throw e) (.error e) :=
  follows_ofOutcome (by rintro _ ⟨⟩)

theorem Follows.mono (h : Follows keeps exact P m o) (hP : ∀ a, P a → P' a) :
    Follows keeps exact P' m o := by
  intro known hknown
  obtain ⟨r, kept, hr, hkept, hvalue, hexact⟩ := h known hknown
  exact ⟨r, kept, hr, hkept, fun a ha => hP a (hvalue a ha), hexact⟩

theorem Follows.map {f : α → β} (h : Follows keeps exact P m o) (hf : ∀ a, P a → Q (f a)) :
    Follows keeps exact Q (m >>= fun a => pure (f a)) (o.map f) := by
  intro known hknown
  obtain ⟨r, kept, hr, hkept, hvalue, hexact⟩ := h known hknown
  cases r with
  | error e =>
    exact ⟨_, _, run_bind_error hr, hkept, by rintro _ ⟨⟩, fun he => by rw [← hexact he]; rfl⟩
  | ok a =>
    refine ⟨_, _, run_bind_ok hr, hkept, ?_, fun he => by rw [← hexact he]; rfl⟩
    rintro _ ⟨⟩
    exact hf a (hvalue a rfl)

theorem Follows.bind (h : Follows keeps exact P m o)
    (hf : ∀ a, P a → Follows keeps exact Q (f a) (g a)) :
    Follows keeps exact Q (m >>= f) (o >>= g) := by
  intro known hknown
  obtain ⟨r, between, hr, hbetween, hvalue, hexact⟩ := h known hknown
  cases r with
  | error e =>
    refine ⟨_, _, run_bind_error hr, hbetween, by rintro _ ⟨⟩, fun he => ?_⟩
    rw [← hexact he]
    rfl
  | ok a =>
    obtain ⟨s, kept, hs, hkept, hresult, hexact'⟩ := hf a (hvalue a rfl) between hbetween
    refine ⟨s, kept, (run_bind_ok hr).trans hs, hkept, hresult, fun he => ?_⟩
    rw [← hexact he]
    exact hexact' he

theorem follows_asking {limit : ℕ} (hkeeps : Serves limit keeps) {asked : Option Ask}
    {outcome : Constants → Except CalcError α}
    (hasked : ∀ a ∈ asked, 0 < a.digits ∧ a.digits ≤ limit)
    (hvalue : ∀ known, keeps known → ∀ a, outcome known = .ok a → P a)
    (hexact : exact → ∀ known, keeps known → outcome known = o) :
    Follows keeps exact P (asking asked outcome) o := by
  intro known hknown
  cases asked with
  | none =>
    exact ⟨_, known, rfl, hknown, hvalue known hknown, fun he => hexact he known hknown⟩
  | some a =>
    obtain ⟨hpos, hle⟩ := hasked a rfl
    have hafter := hkeeps.after hknown hle
    have hroom := hkeeps.room
    have hanswer := (hkeeps.sound hafter).answer_pos hpos (by omega)
    refine ⟨_, _, if_neg fun h => ?_, hafter, hvalue _ hafter, fun he => hexact he _ hafter⟩
    exact hanswer.ne' h.2

end Running

end DeskCalculator
