import DeskCalculator.Proofs.Role
import DeskCalculator.Proofs.Sign

/-!
# Cuts at an operator

The scans for the last operator and for the last operand stop at the same place: the last
cut of the text, which is an operator outside parentheses other than a minus that is a sign
by its neighbour. In an expression a cut stands at an operator that has a role there, so what
follows the cut is an expression as well, also where the operator is a sign.
-/

set_option autoImplicit false

namespace DeskCalculator

namespace Entry

/-- A place at which the scans for an operator may stop. -/
structure Cut (t left : Text) (c : Char) (right : Text) : Prop where
  eq : t = left ++ c :: right
  separates : separates c left.reverse = true
  outside : net Text.nesting right = 0

structure LastCut (t left : Text) (c : Char) (right : Text) : Prop
    extends Cut t left c right where
  last : ∀ {left' : Text} {c' : Char} {right' : Text}, Cut t left' c' right' →
    right.length ≤ right'.length

variable {t r m left left' right right' : Text} {c c' d : Char} {n k : ℕ}

theorem LastCut.unique (h : LastCut t left c right) (h' : LastCut t left' c' right') :
    left = left' ∧ c = c' ∧ right = right' := by
  have hlen : (c :: right).length = (c' :: right').length :=
    congrArg (· + 1) (le_antisymm (h.last h'.toCut) (h'.last h.toCut))
  obtain ⟨hl, hr⟩ := List.append_inj' (h.eq.symm.trans h'.eq) hlen
  exact ⟨hl, List.cons.inj hr⟩

/-! ### The two scans -/

/-- The scans have passed `m`, in which `n` parentheses are closed that have still to open, and
`r` lies ahead in reverse. -/
structure Scanning (t r m : Text) (n : ℕ) : Prop where
  eq : t = r.reverse ++ m
  depth : net Text.nesting m = -n
  passed : ∀ {left : Text} {c : Char} {right : Text}, Cut t left c right →
    m.length ≤ right.length

namespace Scanning

theorem start (t : Text) : Scanning t t.reverse [] 0 where
  eq := by simp
  depth := rfl
  passed := fun _ => Nat.zero_le _

theorem step (h : Scanning t (d :: r) m n) (hd : Text.nesting d - n = -k)
    (hskip : n = 0 → separates d r = false) : Scanning t r (d :: m) k where
  eq := by simpa using h.eq
  depth := by
    rw [net_cons, h.depth]
    omega
  passed := by
    intro left c right hcut
    have hle := h.passed hcut
    refine Nat.lt_of_le_of_ne hle fun hlen => ?_
    -- a cut as long as what was passed would be at the character itself
    have heq := hcut.eq.symm.trans h.eq
    rw [List.reverse_cons, List.append_assoc, List.singleton_append] at heq
    obtain ⟨rfl, hright⟩ := List.append_inj' heq (by simp [hlen])
    obtain ⟨rfl, rfl⟩ := List.cons.inj hright
    have hn : n = 0 := by
      have hm := h.depth
      rw [hcut.outside] at hm
      omega
    have hs := hcut.separates
    rw [List.reverse_reverse, hskip hn] at hs
    cases hs

theorem lastCut (h : Scanning t (d :: r) m 0) (hs : separates d r = true) :
    LastCut t r.reverse d m where
  eq := by simpa using h.eq
  separates := by simpa using hs
  outside := h.depth
  last := h.passed

theorem not_cut (h : Scanning t [] m n) : ¬Cut t left c right := by
  intro hcut
  have hle := h.passed hcut
  have hlen := congrArg List.length (h.eq.symm.trans hcut.eq)
  simp at hlen
  omega

theorem depth_pos (ht : Balanced Text.nesting t) (h : Scanning t ('(' :: r) m n) : 0 < n := by
  have hsuffix : '(' :: m <:+ t := ⟨r.reverse, by simpa using h.eq.symm⟩
  have hle := ht.suffix _ hsuffix
  rw [net_cons, h.depth] at hle
  have hone : Text.nesting '(' = 1 := rfl
  omega

/-- What the scans give ahead of `m`: what stands before the last cut and what after it, or all
of it if there is no cut; everything in reverse. -/
inductive Finds (t r m : Text) : Option Text → Text → Prop
  | cut {left right : Text} {c : Char} : LastCut t left c (right ++ m) →
      Finds t r m (some left.reverse) right.reverse
  | uncut : (∀ left c right, ¬Cut t left c right) → Finds t r m none r

theorem Finds.cons {before : Option Text} {run : Text} (h : Finds t r (d :: m) before run) :
    Finds t (d :: r) m before (d :: run) := by
  cases h with
  | @cut left right c hcut =>
    rw [← List.singleton_append, ← List.append_assoc] at hcut
    simpa using Finds.cut hcut
  | uncut hnone => exact .uncut hnone

theorem finds (ht : Balanced Text.nesting t) (h : Scanning t r m n) :
    Finds t r m (beforeOperator? n r) (operandRun n r) := by
  induction r generalizing m n with
  | nil => exact .uncut fun _ _ _ => h.not_cut
  | cons d r ih =>
    by_cases hclosing : d = ')'
    · subst hclosing
      have hstep : Text.nesting ')' - n = -((n + 1 : ℕ) : ℤ) := by simp [Text.nesting]; omega
      exact (ih (h.step hstep fun _ => rfl)).cons
    by_cases hopening : d = '('
    · subst hopening
      have hpos := h.depth_pos ht
      have hstep : Text.nesting '(' - n = -((n - 1 : ℕ) : ℤ) := by
        simp only [Text.nesting, if_pos]
        omega
      simpa [beforeOperator?, operandRun, hpos.ne'] using (ih (h.step hstep fun _ => rfl)).cons
    by_cases hstop : n = 0 ∧ separates d r = true
    · obtain ⟨rfl, hs⟩ := hstop
      have hcut : LastCut t r.reverse d ([] ++ m) := h.lastCut hs
      simpa [beforeOperator?, operandRun, hclosing, hopening, hs] using
        (Finds.cut hcut : Finds t (d :: r) m _ _)
    · have hskip : n = 0 → separates d r = false := by simpa using hstop
      have hguard : (decide (n = 0) && separates d r) = false := by
        by_cases hn : n = 0 <;> simp [hn, hskip]
      have hstep : Text.nesting d - n = -(n : ℤ) := by
        rw [Text.nesting, if_neg hopening, if_neg hclosing, zero_sub]
      simpa [beforeOperator?, operandRun, hclosing, hopening, hguard] using
        (ih (h.step hstep hskip)).cons

end Scanning

theorem lastOperator?_eq_some_iff (ht : Balanced Text.nesting t) :
    lastOperator? t = some left ↔ ∃ c right, LastCut t left c right := by
  have hfinds := (Scanning.start t).finds ht
  unfold lastOperator?
  generalize beforeOperator? 0 t.reverse = before at hfinds
  generalize operandRun 0 t.reverse = run at hfinds
  cases hfinds with
  | @cut front right c hcut =>
    rw [List.append_nil] at hcut
    constructor
    · intro h
      obtain rfl : front = left := by simpa using h
      exact ⟨c, right, hcut⟩
    · rintro ⟨c', right', hcut'⟩
      simp [(hcut.unique hcut').1]
  | uncut hnone =>
    constructor
    · intro h
      cases h
    · rintro ⟨c, right, hcut⟩
      exact absurd hcut.toCut (hnone _ _ _)

/-- The last operand is what follows the last cut, or all of a text without a cut. -/
inductive IsLastOperand (t : Text) : Text → Prop
  | after {left right : Text} {c : Char} : LastCut t left c right → IsLastOperand t right
  | whole : (∀ left c right, ¬Cut t left c right) → IsLastOperand t t

theorem isLastOperand_operandRun (ht : Balanced Text.nesting t) :
    IsLastOperand t (operandRun 0 t.reverse).reverse := by
  have hfinds := (Scanning.start t).finds ht
  generalize beforeOperator? 0 t.reverse = before at hfinds
  generalize operandRun 0 t.reverse = run at hfinds
  cases hfinds with
  | cut hcut =>
    rw [List.append_nil] at hcut
    simpa using IsLastOperand.after hcut
  | uncut hnone => simpa using IsLastOperand.whole hnone

theorem IsLastOperand.suffix {operand : Text} (h : IsLastOperand t operand) : operand <:+ t := by
  cases h with
  | @after left _ c hcut => exact ⟨left ++ [c], by simpa using hcut.eq.symm⟩
  | whole _ => exact List.suffix_refl t

theorem exists_of_trimRight_ne_nil (ht : Balanced Text.nesting t) (hne : t.trimRight ≠ []) :
    ∃ operand blanks, lastOperand? t = some (operand ++ blanks) ∧
      t = t.trimRight ++ blanks ∧ (∀ c ∈ blanks, Text.isBlank c = true) ∧
      IsLastOperand t.trimRight operand := by
  have hblanks : ∀ c ∈ (t.reverse.takeWhile Text.isBlank).reverse, Text.isBlank c = true :=
    fun c hc => List.mem_takeWhile_imp (List.mem_reverse.mp hc)
  have hsplit : t = t.trimRight ++ (t.reverse.takeWhile Text.isBlank).reverse := by
    rw [Text.trimRight, ← List.reverse_append, List.takeWhile_append_dropWhile,
      List.reverse_reverse]
  have hbody : Balanced Text.nesting t.trimRight :=
    Balanced.of_append (hsplit ▸ ht) (net_eq_zero fun c hc => nesting_of_isBlank (hblanks c hc))
  refine ⟨_, _, ?_, hsplit, hblanks, isLastOperand_operandRun hbody⟩
  have hne' : (t.reverse.dropWhile Text.isBlank).isEmpty = false := by
    simpa [Text.trimRight] using hne
  rw [Text.trimRight, List.reverse_reverse]
  simp only [lastOperand?, hne']
  rfl

theorem lastOperand?_eq_none (h : t.trimRight = []) : lastOperand? t = none := by
  have hbody : t.reverse.dropWhile Text.isBlank = [] := by simpa [Text.trimRight] using h
  simp [lastOperand?, hbody]

/-! ### Cuts of an expression -/

open Token

variable {ts : List Token} {a : Expr}

theorem trimRight_eq_nil_iff (h : readAll t = .ok ts) : t.trimRight = [] ↔ ts = [] := by
  constructor
  · intro hnil
    rw [← readAll_trimRight, hnil, readAll] at h
    exact (Except.ok.inj h).symm
  · rintro rfl
    rw [Text.trimRight, List.dropWhile_eq_nil_iff.mpr fun c hc =>
      isBlank_of_readAll_nil h c (List.mem_reverse.mp hc)]
    rfl

theorem exists_isOperator_of_mem (h : c ∈ operators) :
    ∃ token, ofSymbol? c = some token ∧ token.IsOperator ∧ isLexemeCharacter c = false ∧
      Text.nesting c = 0 := by
  simp only [operators, List.mem_cons, List.not_mem_nil, or_false] at h
  rcases h with rfl | rfl | rfl | rfl
  · exact ⟨.plus, rfl, ⟨.add, rfl⟩, rfl, rfl⟩
  · exact ⟨.minus, rfl, ⟨.sub, rfl⟩, rfl, rfl⟩
  · exact ⟨.times, rfl, ⟨.mul, rfl⟩, rfl, rfl⟩
  · exact ⟨.slash, rfl, ⟨.div, rfl⟩, rfl, rfl⟩

theorem Cut.mem_operators (h : Cut t left c right) : c ∈ operators := by
  have hs := h.separates
  rw [Entry.separates, Bool.and_eq_true] at hs
  exact List.contains_iff_mem.mp hs.1

theorem Cut.not_opensSign (h : Cut t left c right) : c = '-' → opensSign left.reverse = false := by
  rintro rfl
  have hs := h.separates
  rw [Entry.separates, Bool.and_eq_true] at hs
  simpa using hs.2

theorem exists_of_readAll_symbol {token : Token} (hc : ofSymbol? c = some token)
    (hl : isLexemeCharacter c = false) (h : readAll (left ++ c :: right) = .ok ts) :
    ∃ xs ys, readAll left = .ok xs ∧ readAll right = .ok ys ∧ ts = xs ++ token :: ys := by
  obtain ⟨xs, zs, hxs, hzs, rfl⟩ := exists_of_readAll_append (.cons hl left right) h
  rw [readAll_symbol hc] at hzs
  obtain ⟨ys, hys, rfl⟩ := map_eq_ok.mp hzs
  exact ⟨xs, ys, hxs, hys, rfl⟩

theorem Cut.tokens (h : Cut t left c right) (hts : readAll t = .ok ts) :
    ∃ xs token ys, readAll left = .ok xs ∧ readAll right = .ok ys ∧ ofSymbol? c = some token ∧
      token.IsOperator ∧ ts = xs ++ token :: ys := by
  obtain ⟨token, hsymbol, hop, hc, -⟩ := exists_isOperator_of_mem h.mem_operators
  rw [h.eq] at hts
  obtain ⟨xs, ys, hxs, hys, rfl⟩ := exists_of_readAll_symbol hsymbol hc hts
  exact ⟨xs, token, ys, hxs, hys, hsymbol, hop, rfl⟩

/-- A cut of an expression stands at an operator that has a role there. -/
theorem Cut.consumes (h : Cut t left c right) (hts : readAll t = .ok ts)
    (hd : Derives .sum ts a) : ∃ xs token ys role, readAll left = .ok xs ∧
      readAll right = .ok ys ∧ ofSymbol? c = some token ∧ ts = xs ++ token :: ys ∧
      Consumes role .sum xs token ys a := by
  obtain ⟨xs, token, ys, hxs, hys, hsymbol, hop, rfl⟩ := h.tokens hts
  have hnet : net Token.nesting ys = 0 := by rw [← net_of_readAll hys, h.outside]
  obtain ⟨role, hrole⟩ := exists_role_of_derives hd hop hnet
  exact ⟨xs, token, ys, role, hxs, hys, hsymbol, rfl, hrole⟩

theorem IsLastOperand.exists_derives {operand : Text} (h : IsLastOperand t operand)
    (hts : readAll t = .ok ts) (hd : Derives .sum ts a) :
    ∃ us b, readAll operand = .ok us ∧ Derives .sum us b := by
  cases h with
  | after hcut =>
    obtain ⟨_, _, ys, _, -, hys, -, -, hrole⟩ := hcut.consumes hts hd
    obtain ⟨b, hb⟩ := hrole.exists_after
    exact ⟨ys, b, hys, hb⟩
  | whole _ => exact ⟨ts, a, hts, hd⟩

end Entry

end DeskCalculator
