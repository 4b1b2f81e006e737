/-!
# Readings

What a recursive reader finds at the front of a list: a value and the rest of
the list, which is shorter. The record of that fact ends the recursion of every
reader built from it.
-/

set_option autoImplicit false

namespace DeskCalculator

/-- A value read from the front of `ts`, and what is left of it. -/
structure Reading (α : Type) {τ : Type} (ts : List τ) where
  value : α
  rest : List τ
  shorter : rest.length < ts.length

namespace Reading

variable {α β τ : Type} {ts rest : List τ} {token : τ}

theorem length_tail_lt_rest (r : Reading α ts) (h : r.rest = token :: rest) :
    rest.length < r.rest.length := by
  rw [h, List.length_cons]
  exact Nat.lt_succ_self _

theorem length_tail_lt (r : Reading α ts) (h : r.rest = token :: rest) :
    rest.length < ts.length :=
  Nat.lt_trans (r.length_tail_lt_rest h) r.shorter

def next (r : Reading α ts) (h : r.rest = token :: rest) (s : Reading β rest) (value : α) :
    Reading α ts :=
  ⟨value, s.rest, Nat.lt_trans s.shorter (r.length_tail_lt h)⟩

def after (token : τ) (r : Reading α ts) : Reading α (token :: ts) :=
  ⟨r.value, r.rest, Nat.lt_succ_of_lt r.shorter⟩

def of {us : List τ} (r : Reading α us) (h : us.length ≤ ts.length) : Reading α ts :=
  ⟨r.value, r.rest, Nat.lt_of_lt_of_le r.shorter h⟩

def behind (r : Reading α ts) (s : Reading β r.rest) : Reading β ts :=
  s.of (Nat.le_of_lt r.shorter)

def map (f : α → β) (r : Reading α ts) : Reading β ts := ⟨f r.value, r.rest, r.shorter⟩

end Reading

end DeskCalculator
