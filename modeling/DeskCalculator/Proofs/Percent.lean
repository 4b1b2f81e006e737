import DeskCalculator.Proofs.Effects
import DeskCalculator.Proofs.Respaced
import DeskCalculator.Proofs.Written

/-!
# Percentages and blanks

The percent key does not depend on blanks between tokens as long as the scans take each minus
alike: outside parentheses as a sign or not, and as part of the last entry or not. Then both
texts have the same entry and the same base, so both keys fail alike or write the same number
after the same tokens. A blank before or after a minus can change how it is taken, and with it
the percentage.
-/

set_option autoImplicit false

namespace DeskCalculator

open Token

theorem Text.trim_sublist (t : Text) : t.trim.Sublist t := by
  have hright : t.trim.Sublist t.trimLeft := by
    have h := (List.dropWhile_sublist Text.isBlank (l := t.trimLeft.reverse)).reverse
    rwa [List.reverse_reverse] at h
  exact hright.trans (List.dropWhile_sublist Text.isBlank)

theorem digits_sublist (t : Text) : (wholeDigits t ++ fractionDigits t).Sublist t := by
  have h := (List.Sublist.refl (t.takeWhile (· ≠ '.'))).append
    (List.drop_sublist 1 (t.dropWhile (· ≠ '.')))
  rwa [List.takeWhile_append_dropWhile] at h

theorem Decimal.exists_isDigit_of_read {t : Text} {x : Decimal} (h : Decimal.read? t = some x) :
    ∃ c ∈ t, c.isDigit = true := by
  unfold Decimal.read? Decimal.readThen at h
  simp only [Option.bind_eq_bind] at h
  obtain ⟨exponent, -, h⟩ := Option.bind_eq_some_iff.mp h
  obtain ⟨_, hguard, -⟩ := Option.bind_eq_some_iff.mp h
  have hdigits := (Option.guard_eq_some' _).mp hguard
  rw [Bool.and_eq_true, Bool.not_eq_true', List.isEmpty_eq_false_iff, List.all_eq_true] at hdigits
  obtain ⟨c, hc⟩ := List.exists_mem_of_ne_nil _ hdigits.1
  have hunsigned := (List.takeWhile_sublist _).subset ((digits_sublist _).subset hc)
  have htrim : c ∈ t.trim := by
    split at hunsigned
    · next heq => exact heq ▸ List.mem_cons_of_mem _ hunsigned
    · next heq => exact heq ▸ List.mem_cons_of_mem _ hunsigned
    · exact hunsigned
  exact ⟨c, t.trim_sublist.subset htrim, hdigits.2 c hc⟩

namespace Entry

variable {t u before word after : Text} {e : Entry} {ts xs : List Token} {token : Token} {a l : Expr}
  {c : Char}

/-! ### The entry of an expression -/

theorem separate_of_wellJoined (hxs : readAll before = .ok xs) (h : WellJoined (xs ++ [token]))
    (hl : token.isLexeme = true) (v : Text) : Separate before v := by
  refine separate_of_getLast fun c hc => ?_
  obtain ⟨front, rfl⟩ := List.getLast?_eq_some_iff.mp hc
  by_cases hblank : Text.isBlank c = true
  · exact not_isLexemeCharacter_of_blank hblank
  · obtain ⟨ys, x, rfl, hx⟩ := exists_concat_of_readAll hxs (Bool.eq_false_iff.mpr hblank)
    have hsymbol := (h.before_lexeme hl x (by simp)).2
    refine Bool.eq_false_iff.mpr fun hc => ?_
    have hlower := isLexemeCharacter_toLower hc
    cases x with
    | number _ | name _ | constant _ => cases hsymbol
    | plus | minus | times | slash | percent | caret | bang | opening | closing | comma =>
      rw [← Option.some.inj hx] at hlower
      cases hlower

theorem lower_eq_self (h : IsNumeral (Text.lower word)) : Text.lower word = word := by
  have hself : ∀ c ∈ word, c.toLower = id c := by
    intro c hc
    have hlow : c.toLower.val.toNat < 97 := by
      rcases h.isDigit_or_point _ (List.mem_map_of_mem hc) with hd | hp
      · simp only [Char.isDigit, Bool.and_eq_true, decide_eq_true_eq, UInt32.le_iff_toNat_le] at hd
        have h9 : ('9' : Char).val.toNat = 57 := rfl
        omega
      · rw [hp]
        decide
    exact (eq_of_toLower_eq hlow rfl).symm
  exact (List.map_congr_left hself).trans (List.map_id word)

theorem words_of_leaf {word' : Text} (hw : token.WellFormed) (hl : token.leaf? = some l)
    (h : token.text = Text.lower word) (h' : token.text = Text.lower word') :
    word = word' ∨ (∀ c ∈ word, c.isDigit = false) ∧ ∀ c ∈ word', c.isDigit = false := by
  cases token with
  | number u =>
    have hu : IsNumeral (Text.lower word) := h ▸ hw
    have hu' : IsNumeral (Text.lower word') := h' ▸ hw
    exact .inl (by rw [← lower_eq_self hu, ← lower_eq_self hu', ← h, ← h'])
  | constant k =>
    have hname : (k.name.all fun d => !d.isDigit) = true := by cases k <;> rfl
    have hno : ∀ {w : Text}, k.name = Text.lower w → ∀ c ∈ w, c.isDigit = false := by
      intro w hkw c hc
      refine Bool.eq_false_iff.mpr fun hd => ?_
      have hmem : c.toLower ∈ k.name := hkw ▸ List.mem_map_of_mem hc
      have hlower := List.all_eq_true.mp hname _ hmem
      rw [toLower_of_isDigit hd, hd] at hlower
      cases hlower
    exact .inr ⟨hno h, hno h'⟩
  | name _ | plus | minus | times | slash | percent | caret | bang | opening | closing | comma =>
    cases hl

/-- The tokens `ts` of an expression around its last entry: `xs` stand before the entry, which is a
leaf with or without a minus. -/
inductive EntryTokens (ts xs : List Token) (token : Token) : Entry → Prop
  | unsigned {before word after : Text} : readAll before = .ok xs →
      token.text = Text.lower word → word.head? ≠ some '-' → ts = xs ++ [token] →
      EntryTokens ts xs token ⟨before, word, after⟩
  | signed {before word after : Text} : readAll before = .ok xs →
      token.text = Text.lower word → ts = xs ++ [.minus, token] →
      EntryTokens ts xs token ⟨before, '-' :: word, after⟩

theorem text_eq_lower_of_readAll (hw : readAll word = .ok [token])
    (hentry : ∀ c ∈ word, isEntryCharacter c = true) : token.text = Text.lower word := by
  have hspelled := spelled_eq_lower fun c hc =>
    not_blank_of_isLexemeCharacter (isLexemeCharacter_of_isEntryCharacter (hentry c hc))
  simpa [← hspelled] using flatMap_text_of_readAll hw

theorem exists_entryTokens (hts : readAll t = .ok ts) (hd : Derives .sum ts a)
    (he : last? t = some e) : ∃ xs token l, EntryTokens ts xs token e ∧ token.WellFormed ∧
      token.leaf? = some l ∧ ∀ v, Separate e.before v := by
  have hread := Expr.read_of_derives hts hd
  have hsplit := last?_eq_some_iff.mp he
  cases hsplit with
  | @unsigned before word after hb hs =>
    obtain ⟨xs, token, l, hxs, hword, hl, hjoined⟩ := exists_leaf_of_bounds hb hread
    have hsep := separate_of_wellJoined hxs (wellJoined_of_derives hjoined) (isLexeme_of_leaf hl)
    have hall := readAll_append_ok (hsep word) hxs hword
    rw [readAll_append_blanks (isBlank_of_bounds hb), hall] at hts
    obtain rfl := Except.ok.inj hts
    exact ⟨xs, token, l, .unsigned hxs (text_eq_lower_of_readAll hword hb.isEntry)
      hb.head?_ne_minus rfl, (wellFormed_of_readAll hword token (by simp)).1, hl, hsep⟩
  | @signed before word after hb hs =>
    have hread' : Expr.read ((before ++ ['-']) ++ word ++ after) = .ok a := by simpa using hread
    obtain ⟨ys, token, l, hys, hword, hl, -⟩ := exists_leaf_of_bounds hb.concat_minus hread'
    obtain ⟨xs, zs, hxs, hzs, rfl⟩ := exists_of_readAll_symbol rfl rfl hys
    rw [readAll] at hzs
    obtain rfl := Except.ok.inj hzs
    have hminus : readAll ('-' :: word) = .ok [.minus, token] := by
      rw [readAll_symbol rfl, hword]
      rfl
    have hall := readAll_append_ok (separate_of_opensSign hs _) hxs hminus
    rw [readAll_append_blanks (isBlank_of_bounds hb), hall] at hts
    obtain rfl := Except.ok.inj hts
    exact ⟨xs, token, l, .signed hxs (text_eq_lower_of_readAll hword hb.isEntry) rfl,
      (wellFormed_of_readAll hword token (by simp)).1, hl, separate_of_opensSign hs⟩

theorem EntryTokens.agree {e' : Entry} {xs' : List Token} {token' : Token}
    (h : EntryTokens ts xs token e) (h' : EntryTokens ts xs' token' e')
    (hw : token.WellFormed) (hl : token.leaf? = some l)
    (hsign : e.entry.head? = some '-' ↔ e'.entry.head? = some '-') :
    Decimal.read? e.entry = Decimal.read? e'.entry ∧ readAll e.before = .ok xs ∧
      readAll e'.before = .ok xs := by
  have hnone : ∀ {w : Text}, (∀ c ∈ w, c.isDigit = false) → Decimal.read? w = none := by
    intro w hno
    refine Option.eq_none_iff_forall_ne_some.mpr fun x hx => ?_
    obtain ⟨c, hc, hd⟩ := Decimal.exists_isDigit_of_read hx
    rw [hno c hc] at hd
    cases hd
  cases h with
  | unsigned hxs htext hhead hts =>
    cases h' with
    | signed _ _ _ => exact absurd (hsign.mpr rfl) hhead
    | unsigned hxs' htext' _ hts' =>
      obtain ⟨rfl, htoken⟩ := List.append_inj' (hts.symm.trans hts') rfl
      obtain rfl := List.singleton_inj.mp htoken
      refine ⟨?_, hxs, hxs'⟩
      rcases words_of_leaf hw hl htext htext' with rfl | ⟨hno, hno'⟩
      · rfl
      · exact (hnone hno).trans (hnone hno').symm
  | signed hxs htext hts =>
    cases h' with
    | unsigned _ _ hhead' _ => exact absurd (hsign.mp rfl) hhead'
    | signed hxs' htext' hts' =>
      obtain ⟨rfl, htokens⟩ := List.append_inj' (hts.symm.trans hts') rfl
      obtain rfl := List.singleton_inj.mp (List.cons.inj htokens).2
      refine ⟨?_, hxs, hxs'⟩
      rcases words_of_leaf hw hl htext htext' with rfl | ⟨hno, hno'⟩
      · rfl
      · have hminus : ∀ {w : Text}, (∀ c ∈ w, c.isDigit = false) →
            ∀ c ∈ '-' :: w, c.isDigit = false := fun h => List.forall_mem_cons.mpr ⟨rfl, h⟩
        exact (hnone (hminus hno)).trans (hnone (hminus hno')).symm

/-! ### Whether there is an entry -/

theorem exists_last?_of_bounds (hb : Bounds before word after) :
    ∃ e, last? (before ++ word ++ after) = some e := by
  by_cases hs : EndsInSign before
  · obtain ⟨before, rfl, hopens⟩ := hs
    exact ⟨_, hb.last?_of_opensSign hopens⟩
  · exact ⟨_, hb.last?_of_not_endsInSign hs⟩

theorem exists_last?_of_concat (h : isEntryCharacter c = true) :
    ∃ e, last? (t ++ [c]) = some e := by
  obtain ⟨front, run, hsplit, hrun, hfront⟩ := exists_trailing_run isEntryCharacter (t ++ [c])
  have hne : run ≠ [] := by
    rintro rfl
    rw [List.append_nil] at hsplit
    rw [hfront c (by simp [← hsplit])] at h
    cases h
  have hb : Bounds front run [] := ⟨hne, hrun, hfront, fun _ h => nomatch h⟩
  obtain ⟨e, he⟩ := exists_last?_of_bounds hb
  exact ⟨e, by rw [hsplit, ← he, List.append_nil]⟩

theorem isEntryCharacter_of_toLower (h : isEntryCharacter c.toLower = true) :
    isEntryCharacter c = true := by
  have hc := toNat_val_toLower c
  split at hc
  · next hupper =>
    have hu : c.isUpper = true := by
      simpa [Char.isUpper, UInt32.le_iff_toNat_le] using hupper
    simp [isEntryCharacter, Char.isAlphanum, Char.isAlpha, hu]
  · rwa [Char.ext (UInt32.toNat_inj.mp hc)] at h

theorem exists_last?_of_tokens (hts : readAll t = .ok (xs ++ [token]))
    (hend : ∀ c ∈ t.getLast?, Text.isBlank c = false) (hw : token.WellFormed)
    (hl : token.leaf? = some l) : ∃ e, last? t = some e := by
  rcases List.eq_nil_or_concat' t with rfl | ⟨u, c, rfl⟩
  · rw [readAll] at hts
    simp at hts
  · obtain ⟨ys, x, heq, hx⟩ := exists_concat_of_readAll hts (hend c (by simp))
    obtain ⟨rfl, hxs⟩ := List.append_inj' heq rfl
    obtain rfl := List.singleton_inj.mp hxs
    exact exists_last?_of_concat (isEntryCharacter_of_toLower
      (isEntryCharacter_of_leaf hl hw _ (List.mem_of_getLast? hx)))

theorem EntryTokens.exists_eq_concat (h : EntryTokens ts xs token e) :
    ∃ ys, ts = ys ++ [token] := by
  cases h with
  | unsigned _ _ _ hts => exact ⟨xs, hts⟩
  | signed _ _ hts => exact ⟨xs ++ [.minus], by simp [hts]⟩

theorem Bounds.after_eq_nil {front : Text} (hb : Bounds before word after)
    (hend : ∀ c ∈ (front ++ after).getLast?, Text.isBlank c = false) : after = [] := by
  rcases List.eq_nil_or_concat' after with rfl | ⟨u, c, rfl⟩
  · rfl
  · have hc := hend c (by simp)
    rw [hb.isSpace c (by simp)] at hc
    cases hc

theorem after_eq_nil (he : last? t = some e) (hend : ∀ c ∈ t.getLast?, Text.isBlank c = false) :
    e.after = [] := by
  have hsplit := last?_eq_some_iff.mp he
  cases hsplit with
  | unsigned hb _ | signed hb _ => exact hb.after_eq_nil hend

end Entry

namespace Buffer

open Entry

/-- The percent key fails alike on both buffers, or it gives both texts with the same tokens. -/
def PercentAlike (p : Preferences) (b b' : Buffer) : Prop :=
  (∃ err, b.percent p = .error err ∧ b'.percent p = .error err) ∨
    ∃ d d' ts, b.percent p = .ok d ∧ b'.percent p = .ok d' ∧ readAll d.text = .ok ts ∧
      readAll d'.text = .ok ts

variable {p : Preferences} {b b' : Buffer} {e e' : Entry} {t u : Text} {xs : List Token}

theorem percentAlike_of_noEntry (h : last? b.text = none) (h' : last? b'.text = none) :
    PercentAlike p b b' :=
  .inl ⟨.noEntry, by simp [percent, h], by simp [percent, h']⟩

theorem percentAlike_of_entries (he : last? b.text = some e) (he' : last? b'.text = some e')
    (hread : Decimal.read? e.entry = Decimal.read? e'.entry)
    (hbase : percentBase? p e.before = percentBase? p e'.before)
    (hxs : readAll e.before = .ok xs) (hxs' : readAll e'.before = .ok xs)
    (hsep : ∀ v, Separate e.before v) (hsep' : ∀ v, Separate e'.before v)
    (hafter : e.after = []) (hafter' : e'.after = []) : PercentAlike p b b' := by
  have htext : ∀ {f : Entry} {c : Buffer} (v : Decimal), readAll f.before = .ok xs →
      (∀ v, Separate f.before v) → f.after = [] → ∀ us, readAll v.write = .ok us →
      readAll (c.setText (f.replace v.write)).text = .ok (xs ++ us) := by
    intro f c v hf hs ha us hus
    show readAll (f.before ++ v.write ++ f.after) = _
    rw [ha, List.append_nil]
    exact readAll_append_ok (hs _) hf hus
  unfold PercentAlike percent
  rw [he, he']
  simp only [hread, hbase]
  cases Decimal.read? e'.entry with
  | none => exact .inl ⟨_, rfl, rfl⟩
  | some x =>
    simp only
    split
    · exact .inl ⟨_, rfl, rfl⟩
    · next v _ =>
      obtain ⟨us, hus⟩ := v.exists_readAll_write
      exact .inr ⟨_, _, _, rfl, rfl, htext v hxs hsep hafter us hus,
        htext v hxs' hsep' hafter' us hus⟩

/-- Two texts of one expression, neither with a blank at its end. -/
structure SameExpression (t u : Text) : Prop where
  left : Expr.validate t = .ok ()
  right : Expr.validate u = .ok ()
  tokens : readAll t = readAll u
  left_end : t.getLast?.any Text.isBlank = false
  right_end : u.getLast?.any Text.isBlank = false

def SameEntrySign (t u : Text) : Prop := ∀ e e', last? t = some e → last? u = some e' →
  (e.entry.head? = some '-' ↔ e'.entry.head? = some '-')

/-- Blanks between the tokens of an expression do not change what the percent key does, if each
minus outside parentheses is taken alike in both texts, and so is the minus before the entry. -/
theorem percentAlike_of_sameSigns (h : SameExpression b.text b'.text)
    (hsigns : SameSigns b.text b'.text) (hentry : SameEntrySign b.text b'.text) :
    PercentAlike p b b' := by
  obtain ⟨ts, a, hts, hd⟩ := Expr.validate_eq_ok_iff.mp h.left
  have hts' := h.tokens ▸ hts
  have hend : ∀ c ∈ b.text.getLast?, Text.isBlank c = false :=
    (Option.any_eq_false _ _).mp h.left_end
  have hend' : ∀ c ∈ b'.text.getLast?, Text.isBlank c = false :=
    (Option.any_eq_false _ _).mp h.right_end
  cases he : last? b.text with
  | none =>
    refine percentAlike_of_noEntry he (Option.eq_none_iff_forall_ne_some.mpr fun e' he' => ?_)
    obtain ⟨xs, token, l, hentry', hw, hl, -⟩ := exists_entryTokens hts' hd he'
    obtain ⟨ys, rfl⟩ := hentry'.exists_eq_concat
    obtain ⟨e, he''⟩ := exists_last?_of_tokens hts hend hw hl
    rw [he] at he''
    cases he''
  | some e =>
    obtain ⟨xs, token, l, htokens, hw, hl, hsep⟩ := exists_entryTokens hts hd he
    obtain ⟨ys, hys⟩ := htokens.exists_eq_concat
    obtain ⟨e', he'⟩ := exists_last?_of_tokens (hys ▸ hts') hend' hw hl
    obtain ⟨xs', token', l', htokens', -, -, hsep'⟩ := exists_entryTokens hts' hd he'
    obtain ⟨hread, hxs, hxs'⟩ := htokens.agree htokens' hw hl (hentry e e' he he')
    obtain ⟨m, hm, hnet⟩ := split_of_last? he
    obtain ⟨m', hm', hnet'⟩ := split_of_last? he'
    have hrespaced : Respaced b.text b'.text ts := ⟨hts, hts', hsigns⟩
    have hbefore := hrespaced.of_append hm hm' hnet hxs hxs'
    have hbalanced : Balanced Text.nesting e.before :=
      Balanced.of_append (hm ▸ balanced_of_validate h.left) hnet
    have hbalanced' : Balanced Text.nesting e'.before :=
      Balanced.of_append (hm' ▸ balanced_of_validate h.right) hnet'
    exact percentAlike_of_entries he he' hread (percentBase?_congr hbefore hbalanced hbalanced')
      hxs hxs' hsep hsep' (after_eq_nil he hend) (after_eq_nil he' hend')

theorem sameEntrySign_of_last? (he : last? t = some e) (he' : last? u = some e')
    (h : e.entry.head? = some '-' ↔ e'.entry.head? = some '-') : SameEntrySign t u := by
  intro f f' hf hf'
  rwa [← Option.some.inj (he.symm.trans hf), ← Option.some.inj (he'.symm.trans hf')]

theorem sameSigns_of_notMem {k n k' n' : Text} (hk : '-' ∉ k) (hn : '-' ∉ n) (hk' : '-' ∉ k')
    (hn' : '-' ∉ n') (h : opensSign k.reverse = opensSign k'.reverse) :
    SameSigns (k ++ '-' :: n) (k' ++ '-' :: n') := by
  intro l m l' m' ht hu _ _
  obtain ⟨rfl, -⟩ := (List.append_cons_inj_of_notMem hk hn).mp ht
  obtain ⟨rfl, -⟩ := (List.append_cons_inj_of_notMem hk' hn').mp hu
  exact h

theorem percentAlike_of_sameSigns_difference :
    SameExpression "200-50".toList "200 -50".toList ∧
      SameSigns "200-50".toList "200 -50".toList ∧
      SameEntrySign "200-50".toList "200 -50".toList ∧
      PercentAlike {} ⟨"200-50".toList, none, none⟩ ⟨"200 -50".toList, none, none⟩ := by
  have h : SameExpression "200-50".toList "200 -50".toList :=
    { left := by cbv
      right := by cbv
      tokens := by cbv
      left_end := by decide
      right_end := by decide }
  have hsigns : SameSigns "200-50".toList "200 -50".toList :=
    @sameSigns_of_notMem "200".toList "50".toList "200 ".toList "50".toList (by decide) (by decide)
      (by decide) (by decide) (by decide)
  have hentry : SameEntrySign "200-50".toList "200 -50".toList :=
    @sameEntrySign_of_last? ⟨"200-".toList, "50".toList, []⟩ ⟨"200 -".toList, "50".toList, []⟩ _ _
      (by decide) (by decide) (by decide)
  exact ⟨h, hsigns, hentry, @percentAlike_of_sameSigns {} ⟨"200-50".toList, none, none⟩
    ⟨"200 -50".toList, none, none⟩ h hsigns hentry⟩

/-! ### Blanks that matter -/

theorem percent_of_operand {left operand : Text} {a : Expr} {x base v : Decimal}
    (he : last? b.text = some e) (hx : Decimal.read? e.entry = some x)
    (hleft : lastOperator? e.before = some left) (hoperand : lastOperand? left = some operand)
    (hvalid : Expr.validate operand.trim = .ok ()) (ha : Expr.read operand.trim = .ok a)
    (hbase : (p.evaluate a).toOption = some base)
    (hv : ((base.mul x p.context).getD x).div (Decimal.ofInt 100) p.context = some v) :
    b.percent p = .ok (b.setText (e.replace v.write)) := by
  have hvalue : percentBase? p e.before = some base := by
    have htext : percentBaseText? e.before = some operand.trim := by
      rw [percentBaseText?, hleft]
      show (lastOperand? left).bind _ = _
      rw [hoperand]
      rfl
    rw [percentBase?, htext, Option.bind_some, valueOf?, hvalid, p.evaluateText_eq, ha]
    exact hbase
  simp only [percent, he, hx, hvalue, Option.bind_some, hv]

theorem not_percentAlike {d d' : Buffer} {ts ts' : List Token} (hd : b.percent p = .ok d)
    (hd' : b'.percent p = .ok d') (hts : readAll d.text = .ok ts)
    (hts' : readAll d'.text = .ok ts') (hne : ts ≠ ts') : ¬PercentAlike p b b' := by
  rintro (⟨err, herr, -⟩ | ⟨f, f', us, hf, hf', hus, hus'⟩)
  · rw [hd] at herr
    cases herr
  · obtain rfl := Except.ok.inj (hd.symm.trans hf)
    obtain rfl := Except.ok.inj (hd'.symm.trans hf')
    exact hne ((Except.ok.inj (hts.symm.trans hus)).trans
      (Except.ok.inj (hus'.symm.trans hts')))

theorem not_percentAlike_leading :
    ¬PercentAlike {} ⟨"-3+50".toList, none, none⟩ ⟨" -3+50".toList, none, none⟩ := by
  have hd := @percent_of_operand {} ⟨"-3+50".toList, none, none⟩ ⟨"-3+".toList, "50".toList, []⟩
    "-3".toList "-3".toList (.signed .minus (.literal ['3'])) (Decimal.ofInt 50)
    (Decimal.ofInt (-3)) ⟨-15, -1, by decide⟩ (by decide) (by decide +kernel) (by decide)
    (by decide) (by cbv) (by cbv) (by decide +kernel) (by decide +kernel)
  have hd' := @percent_of_operand {} ⟨" -3+50".toList, none, none⟩
    ⟨" -3+".toList, "50".toList, []⟩ " -3".toList "3".toList (.literal ['3']) (Decimal.ofInt 50)
    (Decimal.ofInt 3) ⟨15, -1, by decide⟩ (by decide) (by decide +kernel) (by decide)
    (by decide) (by cbv) (by cbv) (by decide +kernel) (by decide +kernel)
  have hts : readAll "-3+-1.5".toList =
      .ok [.minus, .number ['3'], .plus, .minus, .number ['1', '.', '5']] := by cbv
  have hts' : readAll " -3+1.5".toList =
      .ok [.minus, .number ['3'], .plus, .number ['1', '.', '5']] := by cbv
  exact not_percentAlike hd hd' hts hts' (by decide)

theorem not_percentAlike_detached :
    ¬PercentAlike {} ⟨"0*-5".toList, none, none⟩ ⟨"0*- 5".toList, none, none⟩ := by
  have hd := @percent_of_operand {} ⟨"0*-5".toList, none, none⟩ ⟨"0*".toList, "-5".toList, []⟩
    "0".toList "0".toList (.literal ['0']) (Decimal.ofInt (-5)) Decimal.zero Decimal.zero
    (by decide) (by decide +kernel) (by decide) (by decide) (by cbv) (by cbv) (by decide +kernel)
    (by decide +kernel)
  have hd' := @percent_of_operand {} ⟨"0*- 5".toList, none, none⟩ ⟨"0*- ".toList, "5".toList, []⟩
    "0".toList "0".toList (.literal ['0']) (Decimal.ofInt 5) Decimal.zero Decimal.zero
    (by decide) (by decide +kernel) (by decide) (by decide) (by cbv) (by cbv) (by decide +kernel)
    (by decide +kernel)
  have hts : readAll "0*0".toList = .ok [.number ['0'], .times, .number ['0']] := by cbv
  have hts' : readAll "0*- 0".toList = .ok [.number ['0'], .times, .minus, .number ['0']] := by cbv
  exact not_percentAlike hd hd' hts hts' (by decide)

/-- Blanks can change the percentage: neither condition on the minuses can be left out. -/
theorem percent_not_alike :
    (¬∀ (p : Preferences) (b b' : Buffer), SameExpression b.text b'.text →
      SameEntrySign b.text b'.text → PercentAlike p b b') ∧
    ¬∀ (p : Preferences) (b b' : Buffer), SameExpression b.text b'.text →
      SameSigns b.text b'.text → PercentAlike p b b' := by
  constructor
  · intro h
    refine not_percentAlike_leading (h {} _ _ ?_ ?_)
    · exact
        { left := by cbv
          right := by cbv
          tokens := by cbv
          left_end := by decide
          right_end := by decide }
    · exact @sameEntrySign_of_last? ⟨"-3+".toList, "50".toList, []⟩
        ⟨" -3+".toList, "50".toList, []⟩ _ _ (by decide) (by decide) (by decide)
  · intro h
    refine not_percentAlike_detached (h {} _ _ ?_ ?_)
    · exact
        { left := by cbv
          right := by cbv
          tokens := by cbv
          left_end := by decide
          right_end := by decide }
    · exact @sameSigns_of_notMem "0*".toList "5".toList "0*".toList " 5".toList (by decide)
        (by decide) (by decide) (by decide) rfl

end Buffer

end DeskCalculator
