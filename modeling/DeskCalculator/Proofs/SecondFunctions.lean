import DeskCalculator.Proofs.Session
import Mathlib.Algebra.Ring.Parity

/-!
# The mode and the second functions

The mode is the last one that was set. The second functions are on after an odd number of toggles
since a mode other than the scientific one was set, and that is all that turns them off: a toggle
does not ask which mode it is made in. So they stay with the scientific mode in exactly those
sessions in which no toggle is made outside it.
-/

set_option autoImplicit false

namespace DeskCalculator.Session

/-! ### What an action does to the two -/

def Action.mode? : Action → Option Mode
  | .press (.mode mode) | .setMode mode => some mode
  | .update change => change.mode
  | _ => none

def Action.toggles : Action → Bool
  | .press .second | .toggleSecond => true
  | _ => false

def Action.leaves (action : Action) : Bool := action.mode?.any (· ≠ .scientific)

variable (s : Session) (now : UInt64)

theorem mode_update (u : Preferences.Update) : (s.update u).mode = u.mode.getD s.mode := by
  unfold update
  cases h : u.mode with
  | none => simp
  | some mode => simp [setMode, Preferences.apply, Preferences.override, Preferences.normalized, h]

theorem second_update (u : Preferences.Update) :
    (s.update u).second = (s.second && !u.mode.any (· ≠ .scientific)) := by
  unfold update
  cases h : u.mode with
  | none => simp
  | some mode => simp [setMode, Preferences.apply, Preferences.override, Preferences.normalized, h]

theorem switches_evaluate :
    (s.evaluate now).2.mode = s.mode ∧ (s.evaluate now).2.second = s.second := by
  unfold evaluate
  simp only
  split
  · exact ⟨rfl, rfl⟩
  · split <;> exact ⟨rfl, rfl⟩

theorem switches_press (key : Key) :
    (s.press now key).mode = (Action.press key).mode?.getD s.mode ∧
      (s.press now key).second = if (Action.press key).toggles then !s.second
        else s.second && !(Action.press key).leaves := by
  cases key with
  | insert | delete | clearEntry | clear | clearAll | sign => exact ⟨rfl, (Bool.and_true _).symm⟩
  | second => exact ⟨rfl, rfl⟩
  | mode mode => exact ⟨s.mode_update _, s.second_update _⟩
  | equals =>
    obtain ⟨hmode, hsecond⟩ := s.switches_evaluate now
    exact ⟨hmode, hsecond.trans (Bool.and_true _).symm⟩
  | percent =>
    unfold press
    simp only
    split <;> exact ⟨rfl, (Bool.and_true _).symm⟩
  | memory action =>
    unfold press actOnMemory
    simp only
    split <;> exact ⟨rfl, (Bool.and_true _).symm⟩

theorem switches_act (action : Action) :
    (s.act now action).2.mode = action.mode?.getD s.mode ∧
      (s.act now action).2.second =
        if action.toggles then !s.second else s.second && !action.leaves := by
  cases action with
  | press key => exact s.switches_press now key
  | evaluate =>
    obtain ⟨hmode, hsecond⟩ := s.switches_evaluate now
    exact ⟨hmode, hsecond.trans (Bool.and_true _).symm⟩
  | update u => exact ⟨s.mode_update u, s.second_update u⟩
  | setMode mode => exact ⟨rfl, by simp [act, setMode, Action.leaves, Action.mode?, Action.toggles]⟩
  | toggleSecond => exact ⟨rfl, rfl⟩
  | restore stamp =>
    unfold act restore
    simp only
    split <;> exact ⟨rfl, (Bool.and_true _).symm⟩
  | clearAll => exact ⟨rfl, (Bool.and_true _).symm⟩

/-! ### Runs -/

def lastMode? (steps : List (UInt64 × Action)) : Option Mode := steps.reverse.findSome? (·.2.mode?)

/-- How often the second functions were toggled since a mode without them was set. -/
def togglesSince (steps : List (UInt64 × Action)) : Nat :=
  (steps.reverse.takeWhile fun step => !step.2.leaves).countP (·.2.toggles)

variable {s}

theorem mode_run (steps : List (UInt64 × Action)) :
    (s.run steps).mode = (lastMode? steps).getD s.mode := by
  induction steps using List.reverseRecOn with
  | nil => rfl
  | append_singleton steps step ih =>
    rw [run_snoc, (switches_act _ _ _).1, ih, lastMode?, lastMode?, List.reverse_append]
    cases h : step.2.mode? <;> simp [h]

theorem Action.leaves_of_toggles {action : Action} (h : action.toggles = true) :
    action.mode? = none ∧ action.leaves = false := by
  cases action with
  | press key =>
    cases key with
    | second => exact ⟨rfl, rfl⟩
    | _ => cases h
  | toggleSecond => exact ⟨rfl, rfl⟩
  | _ => cases h

theorem togglesSince_snoc (steps : List (UInt64 × Action)) (step : UInt64 × Action) :
    togglesSince (steps ++ [step]) = if step.2.toggles then togglesSince steps + 1
      else if step.2.leaves then 0 else togglesSince steps := by
  rw [togglesSince, List.reverse_append, List.reverse_singleton, List.singleton_append,
    List.takeWhile_cons]
  by_cases htoggles : step.2.toggles = true
  · simp [htoggles, (Action.leaves_of_toggles htoggles).2, togglesSince]
  · cases hleaves : step.2.leaves <;> simp [htoggles, togglesSince]

theorem second_run (hs : s.second = false) (steps : List (UInt64 × Action)) :
    (s.run steps).second = true ↔ Odd (togglesSince steps) := by
  induction steps using List.reverseRecOn with
  | nil => simp [run, hs, togglesSince]
  | append_singleton steps step ih =>
    rw [run_snoc, (switches_act _ _ _).2, togglesSince_snoc]
    split
    · rw [Nat.odd_add_one, ← ih, Bool.not_eq_true', Bool.not_eq_true]
    · cases step.2.leaves <;> simp [ih]

def SecondIsScientific (s : Session) : Prop := s.second = true → s.mode = .scientific

theorem secondIsScientific_start (p : Preferences) : (start p).SecondIsScientific := by
  intro h
  cases h

theorem secondIsScientific_act (h : s.SecondIsScientific) (now : UInt64) (action : Action) :
    (s.act now action).2.SecondIsScientific ↔ (action.toggles = true → s.mode = .scientific) := by
  obtain ⟨hmode, hsecond⟩ := s.switches_act now action
  rw [SecondIsScientific, hmode, hsecond]
  by_cases htoggles : action.toggles = true
  · rw [(Action.leaves_of_toggles htoggles).1, Option.getD_none]
    simp only [htoggles, if_true, true_imp_iff]
    refine ⟨fun hon => ?_, fun hmode _ => hmode⟩
    by_contra hne
    refine hne (hon ?_)
    rw [Bool.not_eq_true', Bool.eq_false_iff]
    exact fun hs => hne (h hs)
  · rw [if_neg htoggles]
    refine ⟨fun _ htoggles' => absurd htoggles' htoggles, fun _ hon => ?_⟩
    obtain ⟨hs, hstays⟩ := Bool.and_eq_true_iff.mp hon
    cases hset : action.mode? with
    | none => exact h hs
    | some mode => simpa [Action.leaves, hset] using hstays

theorem secondIsScientific_run (h : s.SecondIsScientific) (steps : List (UInt64 × Action)) :
    (∀ k ≤ steps.length, (s.run (steps.take k)).SecondIsScientific) ↔
      ∀ k (hk : k < steps.length), steps[k].2.toggles = true →
        (s.run (steps.take k)).mode = .scientific := by
  induction steps generalizing s with
  | nil => exact ⟨fun _ k hk => absurd hk (Nat.not_lt_zero k), fun _ k _ => by simpa [run] using h⟩
  | cons step rest ih =>
    have hstep := secondIsScientific_act h step.1 step.2
    constructor
    · intro hall k hk htoggles
      have hnext := hall 1 (Nat.succ_pos _)
      cases k with
      | zero => exact hstep.mp hnext htoggles
      | succ k =>
        exact (ih hnext).mp (fun j hj => hall (j + 1) (Nat.succ_le_succ hj)) k
          (Nat.lt_of_succ_lt_succ hk) htoggles
    · intro hall k hk
      have hnext := hstep.mpr (hall 0 (Nat.succ_pos _))
      cases k with
      | zero => exact h
      | succ k =>
        exact (ih hnext).mpr (fun j hj => hall (j + 1) (Nat.succ_lt_succ hj)) k
          (Nat.le_of_succ_le_succ hk)

/-- However a session went on from its start, the mode is the last that was set, and the second
functions are on after an odd number of toggles since a mode without them was set. They were on
in the scientific mode only just if every toggle was made in it. -/
theorem second_functions_run (p : Preferences) (steps : List (UInt64 × Action)) :
    ((start p).run steps).mode = (lastMode? steps).getD p.mode ∧
      (((start p).run steps).second = true ↔ Odd (togglesSince steps)) ∧
      ((∀ k ≤ steps.length, ((start p).run (steps.take k)).second = true →
          ((start p).run (steps.take k)).mode = .scientific) ↔
        ∀ k (hk : k < steps.length), steps[k].2.toggles = true →
          ((start p).run (steps.take k)).mode = .scientific) :=
  ⟨mode_run steps, second_run rfl steps,
    secondIsScientific_run (secondIsScientific_start p) steps⟩

example :
    let s := (start {}).run [(0, .toggleSecond)]
    s.second = true ∧ s.mode = .standard := ⟨rfl, rfl⟩

end DeskCalculator.Session
