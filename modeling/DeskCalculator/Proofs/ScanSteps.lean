import DeskCalculator.Proofs.TextPosition

/-!
# The scans by position

The scans over the end of a text once more, as they count: each holds the characters with their
bytes, runs an index down, looks at the character below it, and turns indices into bytes in the
end. An index that the list does not have, or one counted down below zero, would end them. They never
meet one, and they find what the scans over the reversed text find. The bounds of the last entry and
the position of an operator are boundaries of the text, so the text can be cut there.
-/

set_option autoImplicit false

namespace DeskCalculator

namespace Entry

open Text

variable {t r v : Text} {e : Entry} {limit position : ℕ}

/-! ### Signs -/

def isSignSteps (characters : List (ℕ × Char)) (i : ℕ) : Positioned Bool :=
  if i = 0 then .ok true
  else do
    let previous ← less i 1
    let (_, c) ← characterAt characters previous
    return beforeSign.contains c

theorem isSignSteps_eq (ht : t = r.reverse ++ v) :
    isSignSteps (positions t) r.length = .ok (opensSign r) := by
  cases r with
  | nil => rfl
  | cons c r =>
    rw [isSignSteps, if_neg (by simp), List.length_cons, less_one, Positioned.ok_bind,
      characterAt_reverse ht]
    rfl

def separatesSteps (characters : List (ℕ × Char)) (i : ℕ) (c : Char) : Positioned Bool :=
  if operators.contains c then
    if c = '-' then do
      let sign ← isSignSteps characters i
      return !sign
    else return true
  else return false

theorem separatesSteps_eq (c : Char) (ht : t = r.reverse ++ v) :
    separatesSteps (positions t) r.length c = .ok (separates c r) := by
  rw [separatesSteps, separates, isSignSteps_eq ht]
  cases operators.contains c with
  | false => rfl
  | true =>
    by_cases hminus : c = '-'
    · simp [hminus]
    · simp only [hminus, if_true, if_false, decide_false, Bool.false_and, Bool.not_false]
      rfl

/-! ### The last entry -/

section

variable (characters : List (ℕ × Char)) (length : ℕ)

def signCandidate (stop i minus : ℕ) : Positioned (ℕ × ℕ) := do
  let sign ← isSignSteps characters minus
  let start := if sign then minus else i
  return (byteOf characters start length, byteOf characters stop length)

def insideEntry (stop : ℕ) : ℕ → Positioned (ℕ × ℕ)
  | 0 => .ok (byteOf characters 0 length, byteOf characters stop length)
  | i + 1 => do
    let (_, c) ← characterAt characters i
    if isEntryCharacter c then insideEntry stop i
    else if c = '-' then do
      let minus ← less (i + 1) 1
      signCandidate characters length stop (i + 1) minus
    else return (byteOf characters (i + 1) length, byteOf characters stop length)

def skipSpaces : ℕ → Positioned (Option (ℕ × ℕ))
  | 0 => .ok none
  | i + 1 =>
    match characters[i]? with
    | none => .ok none
    | some (_, c) =>
      if c = ' ' then skipSpaces i
      else if isEntryCharacter c then
        (insideEntry characters length (i + 1) (i + 1)).map some
      else .ok none

end

def boundsSteps (t : Text) : Positioned (Option (ℕ × ℕ)) :=
  skipSpaces (positions t) (size t) (positions t).length

def withoutSign : Text → Text
  | '-' :: before => if opensSign before then before else '-' :: before
  | rest => rest

def endBounds? (r : Text) : Option (ℕ × ℕ) :=
  if (r.takeWhile isEntryCharacter).isEmpty then none
  else some (size (withoutSign (r.dropWhile isEntryCharacter)), size r)

theorem withoutSign_cons {c : Char} (hc : c ≠ '-') (r : Text) : withoutSign (c :: r) = c :: r := by
  unfold withoutSign
  split
  · next h => exact absurd (List.cons.inj h).1 hc
  · rfl

theorem map_last? (t : Text) :
    (last? t).map (fun e => (e.start, e.stop)) =
      endBounds? (t.reverse.dropWhile (· = ' ')) := by
  have hsize : ∀ r : Text, size r =
      size (r.takeWhile isEntryCharacter) + size (r.dropWhile isEntryCharacter) := fun r => by
    rw [← size_append, List.takeWhile_append_dropWhile]
  simp only [last?, endBounds?]
  generalize t.reverse.dropWhile (· = ' ') = body
  rw [hsize body]
  generalize body.takeWhile isEntryCharacter = word
  generalize body.dropWhile isEntryCharacter = rest
  by_cases hword : word.isEmpty = true
  · simp [hword]
  simp only [hword]
  cases rest with
  | nil => simp [withoutSign, start, stop, size]
  | cons c before =>
    by_cases hc : c = '-'
    · subst hc
      by_cases hsign : opensSign before = true
      · simp [withoutSign, hsign, start, stop, size]
        omega
      · simp [withoutSign, hsign, start, stop, size, size_append]
        omega
    · simp [withoutSign_cons hc, hc, start, stop, size, size_append]
      omega

theorem insideEntry_eq (stop : ℕ) (ht : t = r.reverse ++ v) :
    insideEntry (positions t) (size t) stop r.length =
      .ok (size (withoutSign (r.dropWhile isEntryCharacter)),
        byteOf (positions t) stop (size t)) := by
  induction r generalizing v with
  | nil =>
    have hstart := byteOf_reverse ht
    rw [List.length_nil] at hstart ⊢
    rw [insideEntry, hstart]
    rfl
  | cons c r ih =>
    have ht' : t = r.reverse ++ c :: v := by simpa using ht
    rw [List.length_cons, insideEntry, characterAt_reverse ht, Positioned.ok_bind]
    by_cases hentry : isEntryCharacter c = true
    · simp only [if_pos hentry]
      rw [ih ht', List.dropWhile_cons_of_pos hentry]
    · rw [List.dropWhile_cons_of_neg hentry]
      simp only [if_neg hentry, less_one, Positioned.ok_bind]
      have hhere := byteOf_reverse ht
      by_cases hc : c = '-'
      · subst hc
        rw [if_pos rfl, signCandidate, isSignSteps_eq ht', Positioned.ok_bind, withoutSign]
        by_cases hsign : opensSign r = true
        · simp only [hsign, if_pos]
          rw [byteOf_reverse ht']
          rfl
        · simp only [hsign, Bool.false_eq_true, if_false]
          rw [← hhere]
          rfl
      · rw [if_neg hc, withoutSign_cons hc, ← hhere]
        rfl

theorem skipSpaces_eq (ht : t = r.reverse ++ v) :
    skipSpaces (positions t) (size t) r.length = .ok (endBounds? (r.dropWhile (· = ' '))) := by
  induction r generalizing v with
  | nil => rfl
  | cons c r ih =>
    have ht' : t = r.reverse ++ c :: v := by simpa using ht
    have hc := getElem?_positions r.reverse (c :: v)
    rw [List.length_reverse, ← ht', List.head?_cons, Option.map_some] at hc
    rw [List.length_cons, skipSpaces, hc]
    simp only
    by_cases hspace : c = ' '
    · rw [if_pos hspace, ih ht', List.dropWhile_cons_of_pos (by simpa)]
    · rw [if_neg hspace, List.dropWhile_cons_of_neg (by simpa), endBounds?]
      by_cases hentry : isEntryCharacter c = true
      · rw [if_pos hentry, List.takeWhile_cons_of_pos hentry]
        have hinside := insideEntry_eq (c :: r).length ht
        rw [byteOf_reverse ht] at hinside
        rw [List.length_cons] at hinside
        rw [hinside]
        rfl
      · rw [if_neg hentry, List.takeWhile_cons_of_neg hentry]
        rfl

theorem boundsSteps_eq (t : Text) :
    boundsSteps t = .ok ((last? t).map fun e => (e.start, e.stop)) := by
  rw [boundsSteps, map_last?, positions, length_positionsFrom, ← List.length_reverse]
  exact skipSpaces_eq (v := []) (by simp)

theorem isSome_last?_iff (t : Text) :
    (last? t).isSome ↔ ∃ c ∈ (t.rdropWhile (· = ' ')).getLast?, isEntryCharacter c = true := by
  have hsome : (last? t).isSome = ((last? t).map fun e => (e.start, e.stop)).isSome := by simp
  rw [hsome, map_last?, endBounds?, List.rdropWhile, List.getLast?_reverse]
  generalize t.reverse.dropWhile _ = body
  cases body with
  | nil => simp
  | cons c body =>
    by_cases hc : isEntryCharacter c = true
    · simp [hc]
    · simp [hc]

/-- The bounds of the last entry of a text, in bytes. What lies between them is the longest run of
entry characters that ends there, with the minus before it just if that is a sign. -/
structure Delimits (t : Text) (start stop : ℕ) : Prop where
  lt : start < stop
  le_size : stop ≤ size t
  boundary_start : IsBoundary t start
  boundary_stop : IsBoundary t stop
  run : ∃ front word after, Bounds front word after ∧ t = front ++ word ++ after ∧
    t.slice stop (size t) = .ok after ∧
    (EndsInSign front → t.slice start stop = .ok ('-' :: word)) ∧
    (¬EndsInSign front → t.slice start stop = .ok word)

/-! The text can be cut at the bounds of its last entry. -/

theorem eq_append_of_last? (h : last? t = some e) : t = e.before ++ e.entry ++ e.after := by
  cases last?_eq_some_iff.mp h <;> rfl

theorem slice_of_last? (h : last? t = some e) : t.slice e.start e.stop = .ok e.entry := by
  rw [eq_append_of_last? h]
  exact slice_append e.before e.entry e.after

theorem slice_after_of_last? (h : last? t = some e) :
    t.slice e.stop (size t) = .ok e.after := by
  have hslice := slice_append (e.before ++ e.entry) e.after []
  rw [List.append_nil, ← size_append, ← eq_append_of_last? h, size_append] at hslice
  exact hslice

theorem truncate_of_last? (h : last? t = some e) : t.truncate e.start = .ok e.before := by
  rw [eq_append_of_last? h, List.append_assoc]
  exact truncate_append e.before _

theorem replaceRange_of_last? (h : last? t = some e) (other : Text) :
    t.replaceRange e.start e.stop other = .ok (e.replace other) := by
  rw [eq_append_of_last? h]
  exact replaceRange_append e.before e.entry e.after other

theorem delimits_of_last? (h : last? t = some e) : Delimits t e.start e.stop := by
  have ht := eq_append_of_last? h
  have hentry := slice_of_last? h
  have hafter := slice_after_of_last? h
  have hne : e.entry ≠ [] := by
    cases last?_eq_some_iff.mp h with
    | unsigned hb _ => exact hb.ne_nil
    | signed => exact List.cons_ne_nil _ _
  have hpos := size_pos hne
  refine ⟨?_, ?_, ?_, ?_, ?_⟩
  · rw [start, stop]
    omega
  · rw [stop, ht, size_append, size_append]
    omega
  · exact ⟨e.before, e.entry ++ e.after, by rw [← List.append_assoc, ← ht], rfl⟩
  · exact ⟨e.before ++ e.entry, e.after, ht, size_append _ _⟩
  · cases last?_eq_some_iff.mp h with
    | @unsigned before word after hb hs =>
      exact ⟨before, word, after, hb, rfl, hafter, fun hs' => absurd hs' hs, fun _ => hentry⟩
    | @signed before word after hb hs =>
      refine ⟨before ++ ['-'], word, after, hb.concat_minus, by simp, hafter, fun _ => hentry, ?_⟩
      exact fun hs' => absurd (endsInSign_concat.mpr hs) hs'

/-! ### The last operator -/

def operatorScan (characters : List (ℕ × Char)) : ℕ → ℕ → Positioned (Option ℕ)
  | _, 0 => .ok none
  | depth, i + 1 => do
    let (byte, c) ← characterAt characters i
    if c = ')' then operatorScan characters (depth + 1) i
    else if c = '(' ∧ 0 < depth then do
      let outer ← less depth 1
      operatorScan characters outer i
    else if depth = 0 then do
      let separating ← separatesSteps characters i c
      if separating then return some byte else operatorScan characters depth i
    else operatorScan characters depth i

def operatorSteps (t : Text) (limit : ℕ) : Positioned (Option ℕ) :=
  operatorScan (positions t) 0 (indexOf (positions t) limit)

theorem operatorScan_eq (depth : ℕ) (ht : t = r.reverse ++ v) :
    operatorScan (positions t) depth r.length = .ok ((beforeOperator? depth r).map size) := by
  induction r generalizing v depth with
  | nil => rfl
  | cons c r ih =>
    have ht' : t = r.reverse ++ c :: v := by simpa using ht
    rw [List.length_cons, operatorScan, characterAt_reverse ht, Positioned.ok_bind, beforeOperator?]
    simp only [separatesSteps_eq c ht', Positioned.ok_bind]
    by_cases hclosing : c = ')'
    · rw [if_pos hclosing, if_pos hclosing, ih _ ht']
    rw [if_neg hclosing, if_neg hclosing]
    by_cases hopening : c = '('
    · subst hopening
      rw [if_pos rfl]
      by_cases hdepth : 0 < depth
      · rw [if_pos ⟨rfl, hdepth⟩, less_of_le hdepth, Positioned.ok_bind, ih _ ht']
      · obtain rfl : depth = 0 := by omega
        rw [if_neg (by simp), if_pos rfl, if_neg (by simp [separates, operators]), ih _ ht']
    rw [if_neg fun h => hopening h.1, if_neg hopening]
    by_cases hdepth : depth = 0
    · subst hdepth
      by_cases hstop : separates c r = true
      · simp only [hstop, if_true, decide_true, Bool.and_true]
        rfl
      · rw [if_pos rfl, if_neg hstop, if_neg (by simpa using hstop), ih _ ht']
    · rw [if_neg hdepth, if_neg (by simp [hdepth]), ih _ ht']

theorem operatorSteps_eq (t : Text) (limit : ℕ) :
    operatorSteps t limit = .ok (operatorBefore? t limit) := by
  obtain ⟨rest, hrest⟩ := exists_takeBytes_append limit t
  have hscan := operatorScan_eq 0 (t := t) (r := (takeBytes limit t).reverse) (v := rest)
    (by rw [List.reverse_reverse, hrest])
  rw [List.length_reverse] at hscan
  rw [operatorSteps, indexOf_positions, hscan, operatorBefore?, lastOperator?, Option.map_map]
  congr 2
  exact funext fun before => (size_reverse before).symm

theorem exists_of_beforeOperator? {depth : ℕ} {before : Text}
    (h : beforeOperator? depth r = some before) : ∃ passed c, r = passed ++ c :: before := by
  induction r generalizing depth with
  | nil => cases h
  | cons c r ih =>
    have hpass : ∀ {depth : ℕ}, beforeOperator? depth r = some before →
        ∃ passed c', c :: r = passed ++ c' :: before := fun hrest => by
      obtain ⟨passed, c', hr⟩ := ih hrest
      exact ⟨c :: passed, c', by rw [hr, List.cons_append]⟩
    rw [beforeOperator?] at h
    split at h
    · exact hpass h
    · split at h
      · exact hpass h
      · split at h
        · obtain rfl := Option.some.inj h
          exact ⟨[], c, rfl⟩
        · exact hpass h

theorem exists_of_lastOperator? {left : Text} (h : lastOperator? t = some left) :
    ∃ c right, t = left ++ c :: right := by
  obtain ⟨before, hbefore, rfl⟩ := Option.map_eq_some_iff.mp h
  obtain ⟨passed, c, hr⟩ := exists_of_beforeOperator? hbefore
  exact ⟨c, passed.reverse, by rw [← List.reverse_reverse t, hr]; simp⟩

theorem exists_of_operatorBefore? (h : operatorBefore? t limit = some position) :
    ∃ left c right, t = left ++ c :: right ∧ lastOperator? (t.takeBytes limit) = some left ∧
      size left = position ∧ position < limit := by
  obtain ⟨left, hleft, rfl⟩ := Option.map_eq_some_iff.mp h
  obtain ⟨c, right, hsplit⟩ := exists_of_lastOperator? hleft
  obtain ⟨rest, hrest⟩ := exists_takeBytes_append limit t
  refine ⟨left, c, right ++ rest, ?_, hleft, rfl, size_lt_of_takeBytes hsplit⟩
  rw [← hrest, hsplit, List.append_assoc, List.cons_append]

/-! ### The operand before an operator -/

def skipBlanks (characters : List (ℕ × Char)) : ℕ → Positioned ℕ
  | 0 => .ok 0
  | i + 1 => do
    let last ← less (i + 1) 1
    let (_, c) ← characterAt characters last
    if isBlank c then skipBlanks characters i else return i + 1

def operandStart (characters : List (ℕ × Char)) : ℕ → ℕ → Positioned ℕ
  | _, 0 => .ok 0
  | depth, i + 1 => do
    let last ← less (i + 1) 1
    let (_, c) ← characterAt characters last
    if c = ')' then operandStart characters (depth + 1) i
    else if c = '(' then
      if depth = 0 then return i + 1
      else do
        let outer ← less depth 1
        operandStart characters outer i
    else if depth = 0 then do
      let separating ← separatesSteps characters last c
      if separating then return i + 1 else operandStart characters depth i
    else operandStart characters depth i

def operandSteps (t : Text) (position : ℕ) : Positioned (Option Text) := do
  let stop ← skipBlanks (positions t) (indexOf (positions t) position)
  if stop = 0 then return none
  else do
    let start ← operandStart (positions t) 0 stop
    let operand ← t.slice (byteOf (positions t) start (size t)) position
    return some operand

theorem skipBlanks_eq (ht : t = r.reverse ++ v) :
    skipBlanks (positions t) r.length = .ok (r.dropWhile isBlank).length := by
  induction r generalizing v with
  | nil => rfl
  | cons c r ih =>
    rw [List.length_cons, skipBlanks, less_one, Positioned.ok_bind, characterAt_reverse ht,
      Positioned.ok_bind]
    by_cases hc : isBlank c = true
    · simp only [hc, if_true]
      rw [ih (v := c :: v) (by simpa using ht), List.dropWhile_cons_of_pos hc]
    · simp only [hc]
      rw [List.dropWhile_cons_of_neg hc]
      rfl

theorem operandStart_eq (depth : ℕ) (ht : t = r.reverse ++ v) :
    ∃ rest, r = operandRun depth r ++ rest ∧
      operandStart (positions t) depth r.length = .ok rest.length := by
  induction r generalizing v depth with
  | nil => exact ⟨[], rfl, rfl⟩
  | cons c r ih =>
    have ht' : t = r.reverse ++ c :: v := by simpa using ht
    have hpass : ∀ depth, ∃ rest, c :: r = c :: operandRun depth r ++ rest ∧
        operandStart (positions t) depth r.length = .ok rest.length := fun depth => by
      obtain ⟨rest, hr, hstart⟩ := ih depth ht'
      exact ⟨rest, by rw [List.cons_append, ← hr], hstart⟩
    have hstop : ∃ rest, c :: r = [] ++ rest ∧
        (.ok (r.length + 1) : Positioned ℕ) = .ok rest.length := ⟨c :: r, rfl, rfl⟩
    rw [List.length_cons, operandStart, less_one, Positioned.ok_bind, characterAt_reverse ht,
      Positioned.ok_bind, operandRun]
    simp only [separatesSteps_eq c ht', Positioned.ok_bind]
    by_cases hclosing : c = ')'
    · rw [if_pos hclosing, if_pos hclosing]
      exact hpass _
    rw [if_neg hclosing, if_neg hclosing]
    by_cases hopening : c = '('
    · rw [if_pos hopening, if_pos hopening]
      by_cases hdepth : depth = 0
      · rw [if_pos hdepth, if_pos hdepth]
        exact hstop
      · rw [if_neg hdepth, if_neg hdepth, less_of_le (Nat.pos_of_ne_zero hdepth)]
        exact hpass _
    rw [if_neg hopening, if_neg hopening]
    by_cases hdepth : depth = 0
    · by_cases hseparates : separates c r = true
      · rw [if_pos hdepth, if_pos hseparates, if_pos (by simp [hdepth, hseparates])]
        exact hstop
      · rw [if_pos hdepth, if_neg hseparates, if_neg (by simp [hseparates])]
        exact hpass _
    · rw [if_neg hdepth, if_neg (by simp [hdepth])]
      exact hpass _

theorem operandSteps_append (left right : Text) :
    operandSteps (left ++ right) (size left) = .ok (lastOperand? left) := by
  have hindex : indexOf (positions (left ++ right)) (size left) = left.reverse.length := by
    rw [indexOf_positions, takeBytes_append, List.length_reverse]
  have hblanks := skipBlanks_eq (t := left ++ right) (r := left.reverse) (v := right) (by simp)
  have hleft : left = (left.reverse.dropWhile isBlank).reverse ++
      (left.reverse.takeWhile isBlank).reverse := by
    rw [← List.reverse_append, List.takeWhile_append_dropWhile, List.reverse_reverse]
  rw [operandSteps, hindex, hblanks, Positioned.ok_bind, lastOperand?]
  generalize left.reverse.dropWhile isBlank = body at *
  generalize left.reverse.takeWhile isBlank = blanks at *
  cases body with
  | nil => rfl
  | cons c body =>
    obtain ⟨rest, hrest, hstart⟩ := operandStart_eq 0 (t := left ++ right) (r := c :: body)
      (v := blanks.reverse ++ right) (by rw [← List.append_assoc, ← hleft])
    generalize operandRun 0 (c :: body) = run at *
    rw [hrest, List.reverse_append, List.append_assoc] at hleft
    have hbyte := byteOf_reverse (t := left ++ right) (r := rest)
      (v := run.reverse ++ blanks.reverse ++ right) (by rw [← List.append_assoc, ← hleft])
    have hslice := slice_append rest.reverse (run.reverse ++ blanks.reverse) right
    rw [← hleft, ← size_append, ← hleft, size_reverse] at hslice
    simp only [hstart, Positioned.ok_bind, hbyte, hslice]
    rfl

end Entry

end DeskCalculator
