import DeskCalculator.Proofs.Operator

/-!
# Positions in a text

A position in a text counts the bytes before it, and there is one only where a character begins or
the text ends. Whoever cuts a text elsewhere has gone wrong, and so has whoever asks the list of its
characters for an index that it does not have. Here both are asked for in steps that such a use
ends. Where a text is given as the parts before and after a position, all of these steps come to an
end.
-/

set_option autoImplicit false

namespace DeskCalculator

/-- The use of a position, or of an index, where there is none. -/
inductive BadPosition where
  | noCharacter
  | belowZero
  | reversed
  | outside
  | insideCharacter
  deriving DecidableEq, Repr

abbrev Positioned (α : Type) := Except BadPosition α

@[simp] theorem Positioned.ok_bind {α β : Type} (a : α) (f : α → Positioned β) :
    (.ok a : Positioned α) >>= f = f a := rfl

namespace Text

variable {t u v r : Text} {c : Char} {n byte : ℕ}

/-! ### Sizes -/

theorem size_append (u v : Text) : size (u ++ v) = size u + size v := by
  induction u with
  | nil => simp [size]
  | cons c u ih => simp [size, ih, Nat.add_assoc]

@[simp] theorem size_reverse (t : Text) : size t.reverse = size t := by
  induction t with
  | nil => rfl
  | cons c t ih =>
    rw [List.reverse_cons, size_append, ih, size, size, size]
    omega

theorem size_pos (h : t ≠ []) : 0 < size t := by
  cases t with
  | nil => exact absurd rfl h
  | cons c t =>
    have hc := c.utf8Size_pos
    rw [size]
    omega

def IsBoundary (t : Text) (n : ℕ) : Prop := ∃ u v, t = u ++ v ∧ size u = n

theorem isBoundary_append (u v : Text) : IsBoundary (u ++ v) (size u) := ⟨u, v, rfl, rfl⟩

/-! ### Cuts -/

def cut : Text → ℕ → Positioned (Text × Text)
  | [], n => if n = 0 then .ok ([], []) else .error .outside
  | c :: t, n =>
    if n = 0 then .ok ([], c :: t)
    else if n < c.utf8Size then .error .insideCharacter
    else (cut t (n - c.utf8Size)).map fun parts => (c :: parts.1, parts.2)

theorem cut_append (u v : Text) : cut (u ++ v) (size u) = .ok (u, v) := by
  induction u with
  | nil => cases v <;> rfl
  | cons c u ih =>
    have hc := c.utf8Size_pos
    rw [List.cons_append, size, cut, if_neg (by omega), if_neg (by omega), Nat.add_sub_cancel_left,
      ih]
    rfl

def slice (t : Text) (start stop : ℕ) : Positioned Text :=
  if stop < start then .error .reversed
  else do
    let (front, _) ← cut t stop
    let (_, middle) ← cut front start
    return middle

def truncate (t : Text) (n : ℕ) : Positioned Text :=
  if size t < n then .ok t
  else do
    let (front, _) ← cut t n
    return front

def replaceRange (t : Text) (start stop : ℕ) (other : Text) : Positioned Text :=
  if stop < start then .error .reversed
  else do
    let (front, after) ← cut t stop
    let (before, _) ← cut front start
    return before ++ other ++ after

theorem slice_append (u v w : Text) :
    slice (u ++ v ++ w) (size u) (size u + size v) = .ok v := by
  rw [slice, if_neg (by omega), ← size_append, cut_append]
  simp only [Positioned.ok_bind, cut_append]
  rfl

theorem truncate_append (u v : Text) : truncate (u ++ v) (size u) = .ok u := by
  rw [truncate, if_neg (by rw [size_append]; omega), cut_append]
  rfl

theorem replaceRange_append (u v w other : Text) :
    replaceRange (u ++ v ++ w) (size u) (size u + size v) other = .ok (u ++ other ++ w) := by
  rw [replaceRange, if_neg (by omega), ← size_append, cut_append]
  simp only [Positioned.ok_bind, cut_append]
  rfl

/-! ### The characters of a text with their positions -/

def positionsFrom (start : ℕ) : Text → List (ℕ × Char)
  | [] => []
  | c :: t => (start, c) :: positionsFrom (start + c.utf8Size) t

def positions (t : Text) : List (ℕ × Char) := positionsFrom 0 t

def characterAt (characters : List (ℕ × Char)) (i : ℕ) : Positioned (ℕ × Char) :=
  match characters[i]? with
  | some found => .ok found
  | none => .error .noCharacter

def less (i k : ℕ) : Positioned ℕ := if i < k then .error .belowZero else .ok (i - k)

def byteOf (characters : List (ℕ × Char)) (i length : ℕ) : ℕ :=
  (characters[i]?.map Prod.fst).getD length

def indexOf (characters : List (ℕ × Char)) (byte : ℕ) : ℕ :=
  (characters.takeWhile fun found => found.1 < byte).length

theorem length_positionsFrom (start : ℕ) (t : Text) :
    (positionsFrom start t).length = t.length := by
  induction t generalizing start with
  | nil => rfl
  | cons c t ih => simp [positionsFrom, ih]

theorem positionsFrom_append (start : ℕ) (u v : Text) :
    positionsFrom start (u ++ v) = positionsFrom start u ++ positionsFrom (start + size u) v := by
  induction u generalizing start with
  | nil => rfl
  | cons c u ih => simp [positionsFrom, ih, size, Nat.add_assoc]

theorem getElem?_positions (u v : Text) :
    (positions (u ++ v))[u.length]? = v.head?.map fun c => (size u, c) := by
  rw [positions, positionsFrom_append, List.getElem?_append_right (by rw [length_positionsFrom]),
    length_positionsFrom, Nat.sub_self, Nat.zero_add]
  cases v <;> rfl

/-! The text is given as what lies ahead of a scan that runs backwards, in reverse, and what it has
passed. -/

theorem characterAt_reverse (ht : t = (c :: r).reverse ++ v) :
    characterAt (positions t) r.length = .ok (size r, c) := by
  have hsplit : t = r.reverse ++ c :: v := by simpa using ht
  have hfound := getElem?_positions r.reverse (c :: v)
  rw [List.length_reverse, size_reverse] at hfound
  rw [hsplit, characterAt, hfound]
  rfl

theorem byteOf_reverse (ht : t = r.reverse ++ v) :
    byteOf (positions t) r.length (size t) = size r := by
  have hfound := getElem?_positions r.reverse v
  rw [List.length_reverse, size_reverse] at hfound
  rw [ht, byteOf, hfound]
  cases v with
  | nil => simp
  | cons c v => rfl

theorem less_of_le {i k : ℕ} (h : k ≤ i) : less i k = .ok (i - k) := by
  rw [less, if_neg (Nat.not_lt.mpr h)]

theorem less_one (n : ℕ) : less (n + 1) 1 = .ok n := less_of_le (Nat.le_add_left 1 n)

/-! ### The characters before a byte -/

theorem indexOf_positionsFrom (start byte : ℕ) (t : Text) :
    indexOf (positionsFrom start t) byte = (takeBytes (byte - start) t).length := by
  induction t generalizing start with
  | nil => rfl
  | cons c t ih =>
    by_cases hstart : start < byte
    · have hrest := ih (start + c.utf8Size)
      rw [indexOf] at hrest
      rw [positionsFrom, indexOf, List.takeWhile_cons_of_pos (by simpa), List.length_cons, hrest,
        takeBytes, if_neg (by omega), List.length_cons, Nat.sub_sub]
    · rw [positionsFrom, indexOf, List.takeWhile_cons_of_neg (by simpa using hstart), takeBytes,
        if_pos (by omega)]
      rfl

theorem indexOf_positions (byte : ℕ) (t : Text) :
    indexOf (positions t) byte = (takeBytes byte t).length :=
  indexOf_positionsFrom 0 byte t

theorem exists_takeBytes_append (byte : ℕ) (t : Text) : ∃ rest, takeBytes byte t ++ rest = t := by
  induction t generalizing byte with
  | nil => exact ⟨[], rfl⟩
  | cons c t ih =>
    rw [takeBytes]
    split
    · exact ⟨c :: t, rfl⟩
    · obtain ⟨rest, hrest⟩ := ih (byte - c.utf8Size)
      exact ⟨rest, by rw [List.cons_append, hrest]⟩

theorem size_lt_of_takeBytes (h : takeBytes byte t = u ++ c :: v) : size u < byte := by
  induction t generalizing byte u with
  | nil => simp [takeBytes] at h
  | cons d t ih =>
    rw [takeBytes] at h
    split at h
    · simp at h
    · next hbyte =>
      cases u with
      | nil =>
        rw [size]
        omega
      | cons d' u =>
        obtain ⟨rfl, hrest⟩ := List.cons.inj h
        have hlt := ih hrest
        rw [size]
        omega

end Text

end DeskCalculator
