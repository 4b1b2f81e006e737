import DeskCalculator.Desk.History
import Mathlib.Data.List.Nodup

/-!
# The order of a history

The items of a history stand by falling stamps, whatever was added, removed, cleared away or
cut off, and however the clock went. So a stamp tells one item from all the others: it is the one
that is found by the stamp, and the only one that is removed. A program that checks its sums breaks
off when an item is to follow the last word of 64 bits. Without the checks the stamps begin again
there, and one may be given twice.
-/

set_option autoImplicit false

namespace DeskCalculator

namespace History

inductive Change where
  | add (now : UInt64) (expression result : Text)
  | remove (stamp : UInt64)
  | clear
  | setMax (max : Nat)
  deriving DecidableEq, Repr

def change (h : History) : Change → History
  | .add now expression result => h.add now expression result
  | .remove stamp => (h.remove stamp).2
  | .clear => h.clear
  | .setMax max => h.setMax max

def run (h : History) : List Change → History
  | [] => h
  | c :: rest => (h.change c).run rest

def change? (h : History) : Change → Option History
  | .add now expression result => h.add? now expression result
  | c => some (h.change c)

def run? (h : History) : List Change → Option History
  | [] => some h
  | c :: rest => (h.change? c).bind fun h' => h'.run? rest

/-- The stamps that the additions among some changes give, in the order of the additions. -/
def stampsGiven (h : History) : List Change → List UInt64
  | [] => []
  | .add now expression result :: rest =>
    h.nextStamp now :: (h.add now expression result).stampsGiven rest
  | c :: rest => (h.change c).stampsGiven rest

def added (h : History) : Change → List HistoryItem
  | .add now expression result => [⟨expression, result, h.nextStamp now⟩]
  | _ => []

/-- The stamps fall from the newest item on, none is later than the last one given, and there
are no more items than there may be. -/
structure Ordered (h : History) : Prop where
  falling : h.items.Pairwise fun newer older => older.stamp < newer.stamp
  stamp_le : ∀ item ∈ h.items, item.stamp ≤ h.lastStamp
  length_le : h.items.length ≤ h.max
  max_pos : 1 ≤ h.max

def Allows (h : History) : Change → Prop
  | .add _ _ _ => h.HasNext
  | _ => True

def AllowsAll (h : History) : List Change → Prop
  | [] => True
  | c :: rest => h.Allows c ∧ (h.change c).AllowsAll rest

theorem change?_eq_some_iff {h h' : History} {c : Change} :
    h.change? c = some h' ↔ h.Allows c ∧ h.change c = h' := by
  cases c with
  | add now expression result =>
    show (if h.HasNext then some (h.add now expression result) else none) = some h' ↔ _
    rw [Option.ite_none_right_eq_some, Option.some_inj]
    rfl
  | remove | clear | setMax => exact Option.some_inj.trans (and_iff_right trivial).symm

theorem hasNext_empty (max : Nat) : (empty max).HasNext := by
  show (0 : UInt64).toNat + 1 < UInt64.size
  decide

theorem toNat_nextStamp {h : History} (hnext : h.HasNext) (now : UInt64) :
    (h.nextStamp now).toNat = Nat.max now.toNat (h.lastStamp.toNat + 1) := by
  have hone : (1 : UInt64).toNat = 1 := rfl
  rw [nextStamp, UInt64.toNat_max, UInt64.toNat_add, hone, Nat.mod_eq_of_lt hnext]

theorem lastStamp_lt_nextStamp {h : History} (hnext : h.HasNext) (now : UInt64) :
    h.lastStamp < h.nextStamp now := by
  rw [UInt64.lt_iff_toNat_lt, toNat_nextStamp hnext]
  exact Nat.le_max_right _ _

theorem items_change_sublist (h : History) (c : Change) :
    (h.change c).items.Sublist (h.added c ++ h.items) := by
  cases c with
  | add => exact List.take_sublist _ _
  | remove => exact List.filter_sublist
  | clear => exact List.nil_sublist _
  | setMax => exact List.take_sublist _ _

theorem lastStamp_le_change {h : History} {c : Change} (hc : h.Allows c) :
    h.lastStamp ≤ (h.change c).lastStamp := by
  cases c with
  | add now => exact UInt64.le_of_lt (lastStamp_lt_nextStamp hc now)
  | remove | clear | setMax => exact UInt64.le_refl h.lastStamp

theorem stamp_added_le {h : History} {c : Change} (hc : h.Allows c) :
    ∀ item ∈ h.added c, h.lastStamp < item.stamp ∧ item.stamp ≤ (h.change c).lastStamp := by
  intro item hitem
  cases c with
  | add now =>
    obtain rfl := List.mem_singleton.mp hitem
    exact ⟨lastStamp_lt_nextStamp hc now, UInt64.le_refl (h.nextStamp now)⟩
  | remove | clear | setMax => cases hitem

theorem max_change (h : History) (c : Change) :
    (h.change c).max = h.max ∨ ∃ max, c = .setMax max ∧ (h.change c).max = Nat.max max 1 := by
  cases c with
  | setMax max => exact .inr ⟨max, rfl, rfl⟩
  | add | remove | clear => exact .inl rfl

/-! ### The newest item -/

theorem head?_setMax (h : History) (max : Nat) : (h.setMax max).items.head? = h.items.head? := by
  have hmax : Nat.max max 1 ≠ 0 := Nat.ne_of_gt (Nat.le_max_right max 1)
  rw [setMax, List.head?_take, if_neg hmax]

theorem head?_add {h : History} (hmax : 0 < h.max) (now : UInt64) (expression result : Text) :
    (h.add now expression result).items.head? =
      some ⟨expression, result, h.nextStamp now⟩ := by
  rw [add, List.head?_take, if_neg (Nat.ne_of_gt hmax)]
  rfl

/-! ### The order -/

theorem mem_of_find? {h : History} {stamp : UInt64} {item : HistoryItem}
    (hfind : h.find? stamp = some item) : item ∈ h.items ∧ item.stamp = stamp := by
  unfold find? at hfind
  exact ⟨List.mem_of_find?_eq_some hfind, by simpa using List.find?_some hfind⟩

namespace Ordered

variable {h : History}

theorem empty (max : Nat) : (History.empty max).Ordered where
  falling := .nil
  stamp_le := by rintro item ⟨⟩
  length_le := Nat.zero_le _
  max_pos := Nat.le_max_right max 1

variable (ho : h.Ordered)
include ho

theorem length_change_le (c : Change) : (h.change c).items.length ≤ (h.change c).max := by
  cases c with
  | add => exact List.length_take_le _ _
  | remove => exact Nat.le_trans (List.length_filter_le _ _) ho.length_le
  | clear => exact Nat.zero_le _
  | setMax => exact List.length_take_le _ _

theorem change {c : Change} (hc : h.Allows c) : (h.change c).Ordered where
  falling := by
    refine .sublist (h.items_change_sublist c) (List.pairwise_append.mpr ⟨?_, ho.falling, ?_⟩)
    · cases c with
      | add => exact List.pairwise_singleton _ _
      | remove | clear | setMax => exact .nil
    · intro newer hnewer older holder
      exact UInt64.lt_of_le_of_lt (ho.stamp_le older holder) (stamp_added_le hc newer hnewer).1
  stamp_le := by
    intro item hitem
    rcases List.mem_append.mp ((h.items_change_sublist c).subset hitem) with hnew | hold
    · exact (stamp_added_le hc item hnew).2
    · exact UInt64.le_trans (ho.stamp_le item hold) (lastStamp_le_change hc)
  length_le := ho.length_change_le c
  max_pos := by
    obtain hmax | ⟨max, -, hmax⟩ := h.max_change c
    · exact hmax ▸ ho.max_pos
    · exact hmax ▸ Nat.le_max_right max 1

theorem run {cs : List Change} (hcs : h.AllowsAll cs) : (h.run cs).Ordered := by
  induction cs generalizing h with
  | nil => exact ho
  | cons c cs ih => exact ih (ho.change hcs.1) hcs.2

/-! ### A stamp tells an item -/

theorem eq_of_stamp_eq {a b : HistoryItem} (ha : a ∈ h.items) (hb : b ∈ h.items)
    (hs : a.stamp = b.stamp) : a = b := by
  have hnodup : (h.items.map HistoryItem.stamp).Nodup :=
    List.pairwise_map.mpr (ho.falling.imp fun hlt => (UInt64.ne_of_lt hlt).symm)
  exact List.inj_on_of_nodup_map hnodup ha hb hs

theorem find?_eq_some_iff {stamp : UInt64} {item : HistoryItem} :
    h.find? stamp = some item ↔ item ∈ h.items ∧ item.stamp = stamp := by
  refine ⟨mem_of_find?, fun ⟨hitem, hs⟩ => ?_⟩
  obtain ⟨other, hother⟩ : ∃ other, h.find? stamp = some other :=
    Option.isSome_iff_exists.mp (List.find?_isSome.mpr ⟨item, hitem, decide_eq_true hs⟩)
  obtain ⟨hmem, hsame⟩ := mem_of_find? hother
  rwa [ho.eq_of_stamp_eq hitem hmem (hs.trans hsame.symm)]

end Ordered

/-! ### Runs -/

/-- At a clock that stands just below the last word a third item breaks the program off. Without
checks it gets the stamp of the first. -/
theorem stamps_given_twice :
    let now : UInt64 := 18446744073709551614
    let cs : List Change := [.add now ['1'] ['1'], .add now ['2'] ['2'], .add now ['3'] ['3']]
    (empty 3).run? cs = none ∧ (empty 3).stampsGiven cs = [now, now + 1, now] ∧
      ((empty 3).run cs).remove now = (true, ⟨[⟨['2'], ['2'], now + 1⟩], 3, now⟩) := by
  decide

end History

end DeskCalculator
