import DeskCalculator.Proofs.Operator

/-!
# Texts with the same tokens

Two texts with the same tokens differ in blanks and in the case of letters only. The scans
look at neighbouring characters, so they can tell such texts apart: a minus is a sign right
after a symbol, but not after a blank. Where each minus outside parentheses is taken alike in
both texts, the cuts of one text are those of the other, and the scans for the last operator
and the last operand find the same tokens.
-/

set_option autoImplicit false

namespace DeskCalculator

open Token

theorem exists_split_of_readAll {c : Char} {token : Token} {t : Text} {xs ys : List Token}
    (hc : ofSymbol? c = some token) (h : readAll t = .ok (xs ++ token :: ys)) :
    ∃ u v, t = u ++ c :: v ∧ readAll u = .ok xs ∧ readAll v = .ok ys := by
  have hsymbol : c.val.toNat < 97 ∧ isLexemeCharacter c = false := by
    unfold ofSymbol? at hc
    split at hc <;> first | cases hc; done | decide
  suffices hsuffix : ∃ u v, t = u ++ c :: v ∧ readAll v = .ok ys by
    obtain ⟨u, v, rfl, hv⟩ := hsuffix
    obtain ⟨xs', ys', hu, hv', heq⟩ := Entry.exists_of_readAll_symbol hc hsymbol.2 h
    obtain rfl := Except.ok.inj (hv.symm.trans hv')
    rw [List.append_cancel_right heq]
    exact ⟨u, v, rfl, hu, hv⟩
  induction xs generalizing t with
  | nil =>
    obtain ⟨front, piece, rest, rfl, htext, hrest⟩ := exists_piece_of_readAll h
    rw [(wellFormed_ofSymbol hc).2] at htext
    obtain ⟨d, rfl, hd⟩ := List.map_eq_singleton_iff.mp htext.symm
    obtain rfl := eq_of_toLower_eq hsymbol.1 hd
    exact ⟨front, rest, by simp, hrest⟩
  | cons x xs ih =>
    obtain ⟨front, piece, rest, rfl, -, hrest⟩ := exists_piece_of_readAll h
    obtain ⟨u, v, rfl, hv⟩ := ih hrest
    exact ⟨front ++ piece ++ u, v, by simp, hv⟩

namespace Entry

/-- Each minus outside parentheses is taken for a sign in both texts or in neither. -/
def SameSigns (t u : Text) : Prop :=
  ∀ {l m l' m' : Text}, t = l ++ '-' :: m → u = l' ++ '-' :: m' → readAll l = readAll l' →
    net Text.nesting m = 0 → opensSign l.reverse = opensSign l'.reverse

/-- Two texts with the same tokens in which each minus is taken alike. -/
structure Respaced (t u : Text) (ts : List Token) : Prop where
  left : readAll t = .ok ts
  right : readAll u = .ok ts
  signs : SameSigns t u

variable {t u left right left' right' l l' m m' : Text} {c c' : Char} {ts us xs ys : List Token}
  {token : Token}

theorem net_eq_of_readAll (h : readAll t = .ok ts) (h' : readAll u = .ok ts) :
    net Text.nesting t = net Text.nesting u :=
  (net_of_readAll h).trans (net_of_readAll h').symm

namespace Respaced

variable (h : Respaced t u ts)
include h

theorem symm : Respaced u t ts where
  left := h.right
  right := h.left
  signs := by
    rintro l m l' m' rfl rfl hl hm
    obtain ⟨xs, ys, hxs, hys, rfl⟩ := exists_of_readAll_symbol rfl rfl h.right
    obtain ⟨xs', ys', hxs', hys', heq⟩ := exists_of_readAll_symbol rfl rfl h.left
    obtain rfl := Except.ok.inj (hxs.symm.trans (hl.trans hxs'))
    obtain ⟨-, rfl⟩ := List.cons.inj (List.append_cancel_left heq)
    exact (h.signs rfl rfl hl.symm ((net_eq_of_readAll hys' hys).trans hm)).symm

theorem of_append (ht : t = l ++ m) (hu : u = l' ++ m') (hm : net Text.nesting m = 0)
    (hl : readAll l = .ok us) (hl' : readAll l' = .ok us) : Respaced l l' us where
  left := hl
  right := hl'
  signs := by
    rintro k n k' n' rfl rfl hk hn
    have ht' : t = k ++ '-' :: (n ++ m) := by simp [ht]
    have hu' : u = k' ++ '-' :: (n' ++ m') := by simp [hu]
    exact h.signs ht' hu' hk (by rw [net_append, hn, hm, add_zero])

theorem exists_cut (hcut : Cut t left c right) : ∃ left' right' xs ys, Cut u left' c right' ∧
    readAll left = .ok xs ∧ readAll left' = .ok xs ∧ readAll right = .ok ys ∧
    readAll right' = .ok ys := by
  obtain ⟨xs, token, ys, hxs, hys, hsymbol, -, rfl⟩ := hcut.tokens h.left
  obtain ⟨left', right', heq, hxs', hys'⟩ := exists_split_of_readAll hsymbol h.right
  refine ⟨left', right', xs, ys, ⟨heq, ?_, ?_⟩, hxs, hxs', hys, hys'⟩
  · have hs := hcut.separates
    by_cases hminus : c = '-'
    · subst hminus
      have hopens := h.signs hcut.eq heq (hxs.trans hxs'.symm) hcut.outside
      simpa [Entry.separates, ← hopens] using hs
    · simpa [Entry.separates, hminus] using hs
  · rw [net_eq_of_readAll hys' hys, hcut.outside]

end Respaced

theorem Cut.length_lt (h : Cut t left c right) (h' : Cut t left' c' right')
    (hlt : right.length < right'.length) (hxs : readAll right = .ok xs)
    (hys : readAll right' = .ok ys) : xs.length < ys.length := by
  obtain ⟨token, hsymbol, -, hc, -⟩ := exists_isOperator_of_mem h.mem_operators
  rcases append_cons_cases (h.eq.symm.trans h'.eq) with ⟨-, -, rfl⟩ | ⟨m, -, rfl⟩ | ⟨m, -, rfl⟩
  · omega
  · obtain ⟨us, vs, -, hvs, rfl⟩ := exists_of_readAll_symbol hsymbol hc hys
    obtain rfl := Except.ok.inj (hxs.symm.trans hvs)
    simp
    omega
  · simp at hlt
    omega

theorem LastCut.length_le (h : LastCut t left c right) (h' : Cut t left' c' right')
    (hxs : readAll right = .ok xs) (hys : readAll right' = .ok ys) : xs.length ≤ ys.length := by
  rcases (h.last h').eq_or_lt with hlen | hlt
  · obtain ⟨-, hcons⟩ := List.append_inj' (h.eq.symm.trans h'.eq) (by simp [hlen])
    obtain ⟨-, rfl⟩ := List.cons.inj hcons
    rw [Except.ok.inj (hxs.symm.trans hys)]
  · exact (h.toCut.length_lt h' hlt hxs hys).le

namespace Respaced

variable (h : Respaced t u ts)
include h

theorem exists_lastCut (hcut : LastCut t left c right) : ∃ left' right' xs ys,
    LastCut u left' c right' ∧ readAll left = .ok xs ∧ readAll left' = .ok xs ∧
    readAll right = .ok ys ∧ readAll right' = .ok ys := by
  obtain ⟨left', right', xs, ys, hcut', hxs, hxs', hys, hys'⟩ := h.exists_cut hcut.toCut
  refine ⟨left', right', xs, ys, ⟨hcut', fun {l d r} hother => ?_⟩, hxs, hxs', hys, hys'⟩
  -- a cut further on would be one further on in the first text as well
  by_contra hlt
  obtain ⟨l', r', _, zs, hback, -, -, hzs, hzs'⟩ := h.symm.exists_cut hother
  have hless := hother.length_lt hcut' (not_le.mp hlt) hzs hys'
  have hle := hcut.length_le hback hys hzs'
  omega

theorem not_cut (hnone : ∀ left c right, ¬Cut t left c right) :
    ∀ left c right, ¬Cut u left c right := by
  intro left c right hcut
  obtain ⟨left', right', _, _, hback, -⟩ := h.symm.exists_cut hcut
  exact hnone _ _ _ hback

theorem exists_isLastOperand (hlast : IsLastOperand t left) :
    ∃ left' xs, IsLastOperand u left' ∧ readAll left = .ok xs ∧ readAll left' = .ok xs := by
  cases hlast with
  | after hcut =>
    obtain ⟨_, right', _, ys, hcut', -, -, hys, hys'⟩ := h.exists_lastCut hcut
    exact ⟨right', ys, .after hcut', hys, hys'⟩
  | whole hnone => exact ⟨u, ts, .whole (h.not_cut hnone), h.left, h.right⟩

end Respaced

theorem IsLastOperand.unique (h : IsLastOperand t left) (h' : IsLastOperand t right) :
    left = right := by
  cases h with
  | after hcut =>
    cases h' with
    | after hcut' => exact (hcut.unique hcut').2.2
    | whole hnone => exact absurd hcut.toCut (hnone _ _ _)
  | whole hnone =>
    cases h' with
    | after hcut' => exact absurd hcut'.toCut (hnone _ _ _)
    | whole _ => rfl

theorem Respaced.lastOperand_cases (h : Respaced t u ts) (ht : Balanced Text.nesting t)
    (hu : Balanced Text.nesting u) : lastOperand? t = none ∧ lastOperand? u = none ∨
    ∃ x y xs, lastOperand? t = some x ∧ lastOperand? u = some y ∧ readAll x = .ok xs ∧
      readAll y = .ok xs := by
  by_cases hts : ts = []
  · exact .inl ⟨lastOperand?_eq_none ((trimRight_eq_nil_iff h.left).mpr hts),
      lastOperand?_eq_none ((trimRight_eq_nil_iff h.right).mpr hts)⟩
  · obtain ⟨x, xblanks, hx, htrim, hxb, hxlast⟩ :=
      exists_of_trimRight_ne_nil ht ((trimRight_eq_nil_iff h.left).not.mpr hts)
    obtain ⟨y, yblanks, hy, hutrim, hyb, hylast⟩ :=
      exists_of_trimRight_ne_nil hu ((trimRight_eq_nil_iff h.right).not.mpr hts)
    have hbody : Respaced t.trimRight u.trimRight ts :=
      h.of_append htrim hutrim (net_eq_zero fun c hc => nesting_of_isBlank (hxb c hc))
        (by rw [readAll_trimRight, h.left]) (by rw [readAll_trimRight, h.right])
    obtain ⟨y', xs, hy', hxs, hys⟩ := hbody.exists_isLastOperand hxlast
    obtain rfl := hylast.unique hy'
    refine .inr ⟨_, _, xs, hx, hy, ?_, ?_⟩
    · rw [readAll_append_blanks hxb, hxs]
    · rw [readAll_append_blanks hyb, hys]

theorem Cut.net_eq_zero (h : Cut t left c right) : net Text.nesting (c :: right) = 0 := by
  obtain ⟨_, -, -, -, hc⟩ := exists_isOperator_of_mem h.mem_operators
  rw [net_cons, hc, h.outside, add_zero]

theorem lastOperator?_eq_none_iff (ht : Balanced Text.nesting t) :
    lastOperator? t = none ↔ ∀ left c right, ¬LastCut t left c right := by
  rw [Option.eq_none_iff_forall_ne_some]
  exact forall_congr' fun left => by simpa using (lastOperator?_eq_some_iff ht).not

theorem Respaced.lastOperator_cases (h : Respaced t u ts) (ht : Balanced Text.nesting t)
    (hu : Balanced Text.nesting u) : lastOperator? t = none ∧ lastOperator? u = none ∨
    ∃ left left' xs, lastOperator? t = some left ∧ lastOperator? u = some left' ∧
      Respaced left left' xs ∧ Balanced Text.nesting left ∧ Balanced Text.nesting left' := by
  cases hleft : lastOperator? t with
  | none =>
    refine .inl ⟨rfl, (lastOperator?_eq_none_iff hu).mpr fun left' c right' hcut' => ?_⟩
    obtain ⟨left, right, _, _, hcut, -⟩ := h.symm.exists_lastCut hcut'
    exact (lastOperator?_eq_none_iff ht).mp hleft _ _ _ hcut
  | some left =>
    obtain ⟨c, right, hcut⟩ := (lastOperator?_eq_some_iff ht).mp hleft
    obtain ⟨left', right', xs, ys, hcut', hxs, hxs', -⟩ := h.exists_lastCut hcut
    have hnet := hcut.toCut.net_eq_zero
    have hnet' := hcut'.toCut.net_eq_zero
    exact .inr ⟨left, left', xs, rfl, (lastOperator?_eq_some_iff hu).mpr ⟨c, right', hcut'⟩,
      h.of_append hcut.eq hcut'.eq hnet hxs hxs', Balanced.of_append (hcut.eq ▸ ht) hnet,
      Balanced.of_append (hcut'.eq ▸ hu) hnet'⟩

end Entry

namespace Buffer

open Entry

variable {p : Preferences} {t u : Text} {ts : List Token}

theorem valueOf?_congr (h : readAll t = readAll u) : valueOf? p t = valueOf? p u := by
  have hread : Expr.read t = Expr.read u := by rw [Expr.read, Expr.read, h]
  have hvalid : (Expr.validate t).toOption = (Expr.validate u).toOption := by
    refine Option.ext fun x => ?_
    rw [toOption_eq_some, toOption_eq_some, Expr.validate_eq_ok_iff, Expr.validate_eq_ok_iff, h]
  rw [valueOf?, valueOf?, hvalid, p.evaluateText_eq, p.evaluateText_eq, hread]

theorem percentBase?_congr (h : Respaced t u ts) (ht : Balanced Text.nesting t)
    (hu : Balanced Text.nesting u) : percentBase? p t = percentBase? p u := by
  rcases h.lastOperator_cases ht hu with ⟨hl, hr⟩ | ⟨left, left', xs, hl, hr, hparts, hbl, hbr⟩
  · rw [percentBase?, percentBase?, percentBaseText?, percentBaseText?, hl, hr]
  · rcases hparts.lastOperand_cases hbl hbr with ⟨hx, hy⟩ | ⟨x, y, ys, hx, hy, hxs, hys⟩
    · have hleft : percentBaseText? t = none := by rw [percentBaseText?, hl]; simp [hx]
      have hright : percentBaseText? u = none := by rw [percentBaseText?, hr]; simp [hy]
      rw [percentBase?, percentBase?, hleft, hright]
    · have hleft : percentBaseText? t = some x.trim := by rw [percentBaseText?, hl]; simp [hx]
      have hright : percentBaseText? u = some y.trim := by rw [percentBaseText?, hr]; simp [hy]
      rw [percentBase?, percentBase?, hleft, hright]
      exact valueOf?_congr (by rw [readAll_trim, readAll_trim, hxs, hys])

end Buffer

end DeskCalculator
