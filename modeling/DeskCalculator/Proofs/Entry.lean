import DeskCalculator.Desk.Buffer
import DeskCalculator.Proofs.Token

/-!
# The last entry and its sign

The scan for the last entry finds the longest run of entry characters before the spaces
at the end, together with the minus before the run if that is a sign. Changing the sign
twice brings the text back just if the second scan cuts the text where the first one did.
A minus written after a blank, a comma or a closing parenthesis is not seen as a sign,
and of two signs in a row only one belongs to the entry.
-/

set_option autoImplicit false

namespace DeskCalculator

namespace Entry

/-- The last character is a minus that is a sign. -/
def EndsInSign (t : Text) : Prop := ∃ before, t = before ++ ['-'] ∧ opensSign before.reverse = true

structure Bounds (before word after : Text) : Prop where
  ne_nil : word ≠ []
  isEntry : ∀ c ∈ word, isEntryCharacter c = true
  longest : ∀ c ∈ before.getLast?, isEntryCharacter c = false
  isSpace : ∀ c ∈ after, c = ' '

inductive Splits : Text → Entry → Prop
  | unsigned {before word after : Text} : Bounds before word after → ¬EndsInSign before →
      Splits (before ++ word ++ after) ⟨before, word, after⟩
  | signed {before word after : Text} : Bounds before word after →
      opensSign before.reverse = true →
      Splits (before ++ '-' :: word ++ after) ⟨before, '-' :: word, after⟩

theorem endsInSign_concat {before : Text} :
    EndsInSign (before ++ ['-']) ↔ opensSign before.reverse = true := by
  constructor
  · rintro ⟨before', heq, hs⟩
    rwa [List.append_cancel_right heq]
  · exact fun hs => ⟨before, rfl, hs⟩

theorem not_isEntryCharacter_of_opensSign {before : Text} (h : opensSign before.reverse = true) :
    ∀ c ∈ before.getLast?, isEntryCharacter c = false := by
  intro c hc
  rw [List.getLast?_eq_head?_reverse] at hc
  obtain ⟨rest, hrest⟩ := List.head?_eq_some_iff.mp hc
  rw [hrest] at h
  have hall : ∀ d ∈ beforeSign, isEntryCharacter d = false := by
    simp [beforeSign, isEntryCharacter]
  exact hall c (List.contains_iff_mem.mp h)

namespace Bounds

variable {before word after : Text} (h : Bounds before word after)
include h

theorem concat_minus : Bounds (before ++ ['-']) word after where
  ne_nil := h.ne_nil
  isEntry := h.isEntry
  longest := by
    intro c hc
    obtain rfl : '-' = c := by simpa using hc
    rfl
  isSpace := h.isSpace

theorem of_opensSign {before' : Text} (hs : opensSign before'.reverse = true) :
    Bounds before' word after where
  ne_nil := h.ne_nil
  isEntry := h.isEntry
  longest := not_isEntryCharacter_of_opensSign hs
  isSpace := h.isSpace

theorem head?_ne_minus : word.head? ≠ some '-' := fun hw =>
  absurd (h.isEntry '-' (List.mem_of_head? hw)) (by decide)

/-! The reversed text is scanned in three steps. -/

theorem head?_reverse_word (p : Char → Bool) (hp : ∀ c ∈ word, p c = false) :
    ∀ c ∈ (word.reverse ++ before.reverse).head?, p c = false := by
  obtain ⟨c, rest, hw⟩ := List.exists_cons_of_ne_nil (List.reverse_ne_nil_iff.mpr h.ne_nil)
  have hc : c ∈ word := List.mem_reverse.mp (hw ▸ List.mem_cons_self)
  rw [hw]
  simpa using hp c hc

omit h in
theorem reverse_eq :
    (before ++ word ++ after).reverse = after.reverse ++ (word.reverse ++ before.reverse) := by
  rw [List.reverse_append, List.reverse_append]

theorem not_space : ∀ c ∈ word, decide (c = ' ') = false := by
  intro c hc
  refine decide_eq_false fun heq => ?_
  have hentry := h.isEntry c hc
  rw [heq] at hentry
  cases hentry

theorem takeWhile_spaces : (before ++ word ++ after).reverse.takeWhile (· = ' ') = after.reverse := by
  rw [reverse_eq]
  exact takeWhile_append_eq (h.head?_reverse_word _ h.not_space)
    fun c hc => decide_eq_true (h.isSpace c (List.mem_reverse.mp hc))

theorem dropWhile_spaces : (before ++ word ++ after).reverse.dropWhile (· = ' ') =
    word.reverse ++ before.reverse := by
  rw [reverse_eq]
  exact dropWhile_append_eq (h.head?_reverse_word _ h.not_space)
    fun c hc => decide_eq_true (h.isSpace c (List.mem_reverse.mp hc))

theorem takeWhile_word :
    (word.reverse ++ before.reverse).takeWhile isEntryCharacter = word.reverse := by
  refine takeWhile_append_eq ?_ fun c hc => h.isEntry c (List.mem_reverse.mp hc)
  rw [← List.getLast?_eq_head?_reverse]
  exact h.longest

theorem dropWhile_word :
    (word.reverse ++ before.reverse).dropWhile isEntryCharacter = before.reverse := by
  refine dropWhile_append_eq ?_ fun c hc => h.isEntry c (List.mem_reverse.mp hc)
  rw [← List.getLast?_eq_head?_reverse]
  exact h.longest

theorem last?_of_not_endsInSign (hs : ¬EndsInSign before) :
    last? (before ++ word ++ after) = some ⟨before, word, after⟩ := by
  have hne : word.reverse.isEmpty = false := by simpa using h.ne_nil
  simp only [last?, h.takeWhile_spaces, h.dropWhile_spaces, h.takeWhile_word, h.dropWhile_word,
    hne, List.reverse_reverse]
  split
  · next heq => cases heq
  · split
    · next rest hrest =>
      have hbefore : before = rest.reverse ++ ['-'] := by
        rw [← List.reverse_reverse before, hrest, List.reverse_cons]
      split
      · next hopens =>
        refine absurd ⟨rest.reverse, hbefore, ?_⟩ hs
        rwa [List.reverse_reverse]
      · rfl
    · rfl

end Bounds

theorem Bounds.last?_of_opensSign {before word after : Text}
    (h : Bounds (before ++ ['-']) word after) (hs : opensSign before.reverse = true) :
    last? (before ++ ['-'] ++ word ++ after) = some ⟨before, '-' :: word, after⟩ := by
  have hne : word.reverse.isEmpty = false := by simpa using h.ne_nil
  have hrest : (before ++ ['-']).reverse = '-' :: before.reverse := by simp
  simp only [last?, h.takeWhile_spaces, h.dropWhile_spaces, h.takeWhile_word, h.dropWhile_word,
    hne, List.reverse_reverse]
  simp [hrest, hs]

theorem exists_bounds_of_last? {t : Text} {e : Entry} (h : last? t = some e) :
    ∃ before word after, Bounds before word after ∧ t = before ++ word ++ after := by
  have hne : ((t.reverse.dropWhile (· = ' ')).takeWhile isEntryCharacter) ≠ [] := by
    intro hnil
    simp only [last?, hnil] at h
    cases h
  refine ⟨((t.reverse.dropWhile (· = ' ')).dropWhile isEntryCharacter).reverse,
    ((t.reverse.dropWhile (· = ' ')).takeWhile isEntryCharacter).reverse,
    (t.reverse.takeWhile (· = ' ')).reverse, ⟨?_, ?_, ?_, ?_⟩, ?_⟩
  · simpa using hne
  · exact fun c hc => List.mem_takeWhile_imp (List.mem_reverse.mp hc)
  · exact not_of_getLast?_dropWhile _ _
  · intro c hc
    exact of_decide_eq_true
      (@List.mem_takeWhile_imp _ (fun c => decide (c = ' ')) _ _ (List.mem_reverse.mp hc))
  · rw [← List.reverse_append, List.takeWhile_append_dropWhile, ← List.reverse_append,
      List.takeWhile_append_dropWhile, List.reverse_reverse]

/-- The scan for the last entry finds the one cut that the rule of signs allows. -/
theorem last?_eq_some_iff {t : Text} {e : Entry} : last? t = some e ↔ Splits t e := by
  constructor
  · intro h
    obtain ⟨before, word, after, hb, rfl⟩ := exists_bounds_of_last? h
    by_cases hs : EndsInSign before
    · obtain ⟨before, rfl, hopens⟩ := hs
      rw [hb.last?_of_opensSign hopens] at h
      obtain rfl := Option.some.inj h
      simpa using Splits.signed (hb.of_opensSign hopens) hopens
    · rw [hb.last?_of_not_endsInSign hs] at h
      obtain rfl := Option.some.inj h
      exact .unsigned hb hs
  · intro h
    cases h with
    | unsigned hb hs => exact hb.last?_of_not_endsInSign hs
    | @signed before word after hb hs => simpa using hb.concat_minus.last?_of_opensSign hs

/-- The scan of the text with the other sign cuts it where the first scan did: the minus
that is put in is seen as a sign, or no other sign stands before the one that is taken out. -/
def Reversible (e : Entry) : Prop :=
  if e.entry.head? = some '-' then ¬EndsInSign e.before else opensSign e.before.reverse = true

end Entry

namespace Buffer

open Entry

variable {b : Buffer} {before word after : Text}

theorem exists_of_toggleSign (h : b.toggleSign.1 = true) : ∃ e, last? b.text = some e := by
  cases he : last? b.text with
  | some e => exact ⟨e, rfl⟩
  | none => simp [toggleSign, he] at h

theorem oppositeEntry_of_isEntry (h : ∀ c ∈ word, isEntryCharacter c = true) :
    oppositeEntry word = '-' :: word := by
  unfold oppositeEntry
  split
  · exact absurd (h '-' List.mem_cons_self) (by decide)
  · rfl

theorem toggleSign_of_unsigned (h : Bounds before word after) (hs : ¬EndsInSign before)
    (ht : b.text = before ++ word ++ after) :
    b.toggleSign = (true, b.setText (before ++ '-' :: word ++ after)) := by
  have he := last?_eq_some_iff.mpr (.unsigned h hs)
  rw [← ht] at he
  simp [toggleSign, he, Entry.replace, oppositeEntry_of_isEntry h.isEntry]

theorem toggleSign_of_signed (h : Bounds before word after)
    (hs : opensSign before.reverse = true) (ht : b.text = before ++ '-' :: word ++ after) :
    b.toggleSign = (true, b.setText (before ++ word ++ after)) := by
  have he := last?_eq_some_iff.mpr (.signed h hs)
  rw [← ht] at he
  simp [toggleSign, he, Entry.replace, oppositeEntry]

theorem toggleSign_twice_of_unsigned (h : Bounds before word after) (hs : ¬EndsInSign before)
    (ht : b.text = before ++ word ++ after) :
    b.toggleSign.2.toggleSign.1 = true ∧ (b.toggleSign.2.toggleSign.2.text = b.text ↔
      opensSign before.reverse = true) := by
  rw [toggleSign_of_unsigned h hs ht]
  by_cases hopens : opensSign before.reverse = true
  · rw [toggleSign_of_signed h hopens rfl]
    exact ⟨rfl, iff_of_true ht.symm hopens⟩
  · -- the new minus is no sign, so the second one stands after it
    have hsign : ¬EndsInSign (before ++ ['-']) := fun hs => hopens (endsInSign_concat.mp hs)
    rw [toggleSign_of_unsigned h.concat_minus hsign (by simp [setText])]
    refine ⟨rfl, iff_of_false (fun heq => ?_) hopens⟩
    have hlen := congrArg List.length (heq.trans ht)
    simp [setText] at hlen
    omega

theorem toggleSign_twice_of_signed (h : Bounds before word after)
    (hs : opensSign before.reverse = true) (ht : b.text = before ++ '-' :: word ++ after) :
    b.toggleSign.2.toggleSign.1 = true ∧ (b.toggleSign.2.toggleSign.2.text = b.text ↔
      ¬EndsInSign before) := by
  rw [toggleSign_of_signed h hs ht]
  by_cases hsign : EndsInSign before
  · -- the sign before is taken for the one of the entry
    obtain ⟨before, rfl, hopens⟩ := hsign
    rw [toggleSign_of_signed (h.of_opensSign hopens) hopens (by simp [setText])]
    refine ⟨rfl, iff_of_false (fun heq => ?_) (not_not.mpr ⟨before, rfl, hopens⟩)⟩
    have hlen := congrArg List.length (heq.trans ht)
    simp [setText] at hlen
    omega
  · rw [toggleSign_of_unsigned h hsign rfl]
    exact ⟨rfl, iff_of_true ht.symm hsign⟩

/-- A sign that was changed can be changed again, and that restores the text exactly for a
reversible entry. -/
theorem toggleSign_twice (h : b.toggleSign.1 = true) :
    b.toggleSign.2.toggleSign.1 = true ∧ ∃ e, last? b.text = some e ∧
      (b.toggleSign.2.toggleSign.2.text = b.text ↔ e.Reversible) := by
  obtain ⟨e, he⟩ := exists_of_toggleSign h
  have hsplit := last?_eq_some_iff.mp he
  generalize ht : b.text = t at hsplit
  cases hsplit with
  | @unsigned before word after hb hs =>
    obtain ⟨htwice, hiff⟩ := toggleSign_twice_of_unsigned hb hs ht
    exact ⟨htwice, _, ht ▸ he, by simpa [Reversible, hb.head?_ne_minus, ht] using hiff⟩
  | @signed before word after hb hs =>
    obtain ⟨htwice, hiff⟩ := toggleSign_twice_of_signed hb hs ht
    exact ⟨htwice, _, ht ▸ he, by simpa [Reversible, ht] using hiff⟩

theorem toggleSign_twice_after_operator :
    (⟨"3+4".toList, none, none⟩ : Buffer).toggleSign.1 = true ∧
      (⟨"3+4".toList, none, none⟩ : Buffer).toggleSign.2.toggleSign.1 = true ∧
      ∃ e, last? "3+4".toList = some e ∧
        ((⟨"3+4".toList, none, none⟩ : Buffer).toggleSign.2.toggleSign.2.text = "3+4".toList ↔
          e.Reversible) :=
  ⟨by decide, toggleSign_twice (by decide)⟩

/-- After a blank a minus is no sign, so the second change puts in another one. -/
theorem toggleSign_not_involutive :
    ¬∀ b : Buffer, b.toggleSign.1 = true →
      b.toggleSign.2.toggleSign.1 = true ∧ b.toggleSign.2.toggleSign.2.text = b.text := by
  intro h
  have htwice := (h ⟨"3 + 4".toList, none, none⟩ (by decide)).2
  revert htwice
  decide

end Buffer

end DeskCalculator
