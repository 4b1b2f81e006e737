import DeskCalculator.Proofs.Entry
import DeskCalculator.Proofs.Spine

/-!
# The sign of the last entry and the tree

The scan for the last entry looks at characters, the reader at tokens. On an expression they
agree: the entry without its sign is one token, the last one, and the tree has it as its last
leaf. Where the scan takes a minus into the entry, the reader makes it the sign of that leaf.
So changing the sign of the entry changes the sign of the last leaf and nothing else.
-/

set_option autoImplicit false

namespace DeskCalculator

open Entry Token

/-! ### Characters of the last token -/

theorem isLexemeCharacter_of_isEntryCharacter {c : Char} (h : isEntryCharacter c = true) :
    isLexemeCharacter c = true := by
  rcases (by simpa [isEntryCharacter, Char.isAlphanum, or_assoc] using h :
    c.isAlpha = true ∨ c.isDigit = true ∨ c = '.') with h | h | rfl
  · simp [isLexemeCharacter, isWordCharacter, h]
  · simp [isLexemeCharacter, h]
  · rfl

theorem eq_underscore_of_isLexemeCharacter {c : Char} (h : isLexemeCharacter c = true)
    (he : isEntryCharacter c = false) : c = '_' := by
  simp only [isEntryCharacter, Char.isAlphanum, Bool.or_eq_false_iff, decide_eq_false_iff_not] at he
  simpa [isLexemeCharacter, isWordCharacter, he.1.1, he.1.2, he.2] using h

theorem not_blank_of_isLexemeCharacter {c : Char} (h : isLexemeCharacter c = true) :
    Text.isBlank c = false := by
  refine Bool.eq_false_iff.mpr fun hb => ?_
  rw [not_isLexemeCharacter_of_blank hb] at h
  cases h

theorem isLexemeCharacter_toLower {c : Char} (h : isLexemeCharacter c = true) :
    isLexemeCharacter c.toLower = true := by
  rcases (by simpa [isLexemeCharacter, or_assoc] using h :
    c.isDigit = true ∨ c = '.' ∨ isWordCharacter c = true) with h | rfl | h
  · rw [toLower_of_isDigit h]
    exact isLexemeCharacter_of_isDigit h
  · rfl
  · exact isLexemeCharacter_of_isWord (isWord_toLower h)

theorem isLexeme_of_text {token : Token} (h : ∀ c ∈ token.text, isLexemeCharacter c = true) :
    token.isLexeme = true := by
  cases token with
  | number _ | constant _ | name _ => rfl
  | plus | minus | times | slash | percent | caret | bang | opening | closing | comma =>
    exact absurd (h _ List.mem_cons_self) (by decide)

theorem exists_leaf_of_closesOperand {token : Token} (h : token.isLexeme = true)
    (hc : token.closesOperand = true) : ∃ l, token.leaf? = some l := by
  cases token <;> first | exact ⟨_, rfl⟩ | cases h; done | cases hc

theorem isLexeme_of_leaf {token : Token} {l : Expr} (h : token.leaf? = some l) :
    token.isLexeme = true := by
  cases token <;> first | rfl | cases h

theorem isEntryCharacter_of_leaf {token : Token} {l : Expr} (h : token.leaf? = some l)
    (hw : token.WellFormed) : ∀ c ∈ token.text, isEntryCharacter c = true := by
  intro c hc
  cases token with
  | number t =>
    rcases IsNumeral.isDigit_or_point hw c hc with hd | rfl
    · simp [isEntryCharacter, Char.isAlphanum, hd]
    · rfl
  | constant k =>
    have hname : ∀ d ∈ k.name, isEntryCharacter d = true :=
      List.all_eq_true.mp (by cases k <;> rfl)
    exact hname c hc
  | name _ | plus | minus | times | slash | percent | caret | bang | opening | closing | comma =>
    cases h

/-! ### The entry is one token -/

theorem eq_singleton_of_text {xs ys : List Token} (h : WellJoined (xs ++ ys)) (hne : ys ≠ [])
    (hy : ∀ c ∈ ys.flatMap text, isLexemeCharacter c = true) :
    ∃ token l, ys = [token] ∧ token.leaf? = some l := by
  have hlexeme : ∀ y ∈ ys, y.isLexeme = true := fun y hys =>
    isLexeme_of_text fun c hc => hy c (List.mem_flatMap.mpr ⟨y, hys, hc⟩)
  obtain ⟨init, token, rfl⟩ := List.eq_nil_or_concat' ys |>.resolve_left hne
  have htoken := hlexeme token (by simp)
  rw [← List.append_assoc] at h
  obtain ⟨l, hl⟩ := exists_leaf_of_closesOperand htoken h.closesOperand_getLast
  refine ⟨token, l, ?_, hl⟩
  -- a further token before it would be a number or a word as well
  rcases List.eq_nil_or_concat' init with rfl | ⟨init, y, rfl⟩
  · rfl
  · have hbefore := (h.before_lexeme htoken y (by simp)).2
    rw [hlexeme y (by simp)] at hbefore
    cases hbefore

theorem separate_of_getLast {u v : Text}
    (h : ∀ c ∈ u.getLast?, isLexemeCharacter c = false) : Separate u v := by
  intro c hc d _ hl
  rw [h c hc] at hl
  cases hl

theorem exists_trailing_run (p : Char → Bool) (t : Text) :
    ∃ front run, t = front ++ run ∧ (∀ c ∈ run, p c = true) ∧
      ∀ c ∈ front.getLast?, p c = false := by
  refine ⟨(t.reverse.dropWhile p).reverse, (t.reverse.takeWhile p).reverse, ?_, ?_, ?_⟩
  · rw [← List.reverse_append, List.takeWhile_append_dropWhile, List.reverse_reverse]
  · exact fun c hc => List.mem_takeWhile_imp (List.mem_reverse.mp hc)
  · exact not_of_getLast?_dropWhile p t.reverse

variable {front run before word after : Text} {ts : List Token} {a : Expr}

theorem exists_leaf_of_run (hfront : ∀ c ∈ front.getLast?, isLexemeCharacter c = false)
    (hrun : ∀ c ∈ run, isLexemeCharacter c = true) (hne : run ≠ [])
    (hts : readAll (front ++ run) = .ok ts) (ha : Expr.ofTokens ts = .ok a) :
    ∃ xs token l, readAll front = .ok xs ∧ readAll run = .ok [token] ∧
      token.text = Text.lower run ∧ token.leaf? = some l ∧ Derives .sum (xs ++ [token]) a := by
  obtain ⟨xs, ys, hxs, hys, rfl⟩ := exists_of_readAll_append (separate_of_getLast hfront) hts
  have htext : ys.flatMap text = Text.lower run := by
    rw [flatMap_text_of_readAll hys,
      spelled_eq_lower fun c hc => not_blank_of_isLexemeCharacter (hrun c hc)]
  have hys_ne : ys ≠ [] := by
    rintro rfl
    exact hne (List.map_eq_nil_iff.mp htext.symm)
  have hlexeme : ∀ c ∈ ys.flatMap text, isLexemeCharacter c = true := by
    rw [htext]
    intro c hc
    obtain ⟨d, hd, rfl⟩ := List.mem_map.mp hc
    exact isLexemeCharacter_toLower (hrun d hd)
  have hd := derives_of_ofTokens ha (by simp [hys_ne])
  obtain ⟨token, l, rfl, hl⟩ := eq_singleton_of_text (wellJoined_of_derives hd) hys_ne hlexeme
  exact ⟨xs, token, l, hxs, hys, by simpa using htext, hl, hd⟩

theorem eq_nil_of_leaf {token : Token} {l : Expr} {stem : Text} (hw : token.WellFormed)
    (hl : token.leaf? = some l) (htext : token.text = Text.lower (stem ++ word))
    (hstem : ∀ c ∈ stem, isLexemeCharacter c = true)
    (hlast : ∀ c ∈ stem.getLast?, isEntryCharacter c = false) : stem = [] := by
  by_contra hne
  have hmem := List.getLast_mem hne
  have hunderscore := eq_underscore_of_isLexemeCharacter (hstem _ hmem)
    (hlast _ (List.getLast?_eq_some_getLast hne))
  have hin : '_' ∈ token.text := by
    rw [htext]
    refine List.mem_map.mpr ⟨stem.getLast hne, List.mem_append_left _ hmem, ?_⟩
    rw [hunderscore]
    rfl
  exact absurd (isEntryCharacter_of_leaf hl hw '_' hin) (by decide)

theorem isBlank_of_bounds (hb : Bounds before word after) :
    ∀ c ∈ after, Text.isBlank c = true := by
  intro c hc
  rw [hb.isSpace c hc]
  rfl

/-- An expression that ends in an entry has the entry, without its sign, as its last token. -/
theorem exists_leaf_of_bounds (hb : Bounds before word after)
    (h : Expr.read (before ++ word ++ after) = .ok a) :
    ∃ xs token l, readAll before = .ok xs ∧ readAll word = .ok [token] ∧
      token.leaf? = some l ∧ Derives .sum (xs ++ [token]) a := by
  obtain ⟨ts, hts, ha⟩ := bind_eq_ok.mp h
  rw [readAll_append_blanks (isBlank_of_bounds hb)] at hts
  -- the token may reach further to the left than the entry
  obtain ⟨front, stem, rfl, hstem, hfront⟩ := exists_trailing_run isLexemeCharacter before
  have hrun : ∀ c ∈ stem ++ word, isLexemeCharacter c = true := by
    intro c hc
    rcases List.mem_append.mp hc with hc | hc
    · exact hstem c hc
    · exact isLexemeCharacter_of_isEntryCharacter (hb.isEntry c hc)
  rw [List.append_assoc] at hts
  obtain ⟨xs, token, l, hxs, htoken, htext, hl, hd⟩ :=
    exists_leaf_of_run hfront hrun (by simp [hb.ne_nil]) hts ha
  have hlast : ∀ c ∈ stem.getLast?, isEntryCharacter c = false := fun c hc =>
    hb.longest c (by rw [List.getLast?_append, Option.mem_def.mp hc]; rfl)
  obtain rfl := eq_nil_of_leaf (wellFormed_of_readAll htoken token (by simp)).1 hl htext hstem hlast
  rw [List.append_nil]
  exact ⟨xs, token, l, hxs, htoken, hl, hd⟩

/-! ### Signs -/

theorem exists_symbol_of_opensSign (h : opensSign before.reverse = true) (hne : before ≠ []) :
    ∃ front c token, before = front ++ [c] ∧ ofSymbol? c = some token ∧
      isLexemeCharacter c = false ∧ token.closesOperand = false := by
  obtain ⟨front, c, rfl⟩ := List.eq_nil_or_concat' before |>.resolve_left hne
  rw [List.reverse_append] at h
  have hc : c ∈ beforeSign := List.contains_iff_mem.mp h
  refine ⟨front, c, ?_⟩
  simp only [beforeSign, List.mem_cons, List.not_mem_nil, or_false] at hc
  rcases hc with rfl | rfl | rfl | rfl | rfl | rfl | rfl <;> exact ⟨_, rfl, rfl, rfl, rfl⟩

theorem separate_of_opensSign (h : opensSign before.reverse = true) (v : Text) :
    Separate before v := by
  refine separate_of_getLast fun c hc => ?_
  by_cases hne : before = []
  · subst hne
    cases hc
  · obtain ⟨front, d, token, rfl, -, hd, -⟩ := exists_symbol_of_opensSign h hne
    obtain rfl : d = c := by simpa using hc
    exact hd

theorem awaits_of_opensSign (h : opensSign before.reverse = true) {xs : List Token}
    (hxs : readAll before = .ok xs) : Awaits xs := by
  by_cases hne : before = []
  · subst hne
    rw [readAll] at hxs
    cases hxs
    intro _ ht
    cases ht
  · obtain ⟨front, c, token, rfl, hs, hc, hcloses⟩ := exists_symbol_of_opensSign h hne
    obtain ⟨ys, zs, -, hzs, rfl⟩ := exists_of_readAll_append (.cons hc front []) hxs
    rw [readAll_symbol hs, readAll] at hzs
    cases hzs
    intro t ht
    obtain rfl : token = t := by simpa using ht
    exact hcloses

inductive Expr.IsLeaf : Expr → Prop
  | literal (text : Text) : IsLeaf (.literal text)
  | constant (c : Constant) : IsLeaf (.constant c)

theorem isLeaf_of_leaf {token : Token} {l : Expr} (h : token.leaf? = some l) : l.IsLeaf := by
  cases token <;> cases h
  · exact .literal _
  · exact .constant _

theorem read_of_leaf {token : Token} {l : Expr} (hw : readAll word = .ok [token])
    (hl : token.leaf? = some l) : Expr.read word = .ok l := by
  exact Expr.read_of_derives hw (derives_sum_of_derives (derives_leaf hl) (by simp))

theorem read_of_readAll (h : readAll word = .ok ts) (hd : Derives .sum ts a)
    (hafter : ∀ c ∈ after, Text.isBlank c = true) : Expr.read (word ++ after) = .ok a := by
  exact Expr.read_of_derives ((readAll_append_blanks hafter word).trans h) hd

theorem read_insert_minus (hb : Bounds before word after)
    (h : Expr.read (before ++ word ++ after) = .ok a) :
    ∃ (way : Spine) (l : Expr), l.IsLeaf ∧ Expr.read word = .ok l ∧ a = way.fill l ∧
      Expr.read (before ++ '-' :: word ++ after) = .ok (way.fill (.signed .minus l)) := by
  obtain ⟨xs, token, l, hxs, hword, hl, hd⟩ := exists_leaf_of_bounds hb h
  have hawaits : Awaits xs := fun x hx =>
    ((wellJoined_of_derives hd).before_lexeme (isLexeme_of_leaf hl) x hx).1
  obtain ⟨way, hway, hfill⟩ := leadsTo_of_derives hd (.leaf hl) hawaits
  have hminus : readAll ('-' :: word) = .ok [.minus, token] := by
    rw [readAll_symbol rfl, hword]
    rfl
  have hsep : Separate before ('-' :: word) := .cons rfl before word
  have hsigned : Derives .signed [.minus, token] (.signed .minus l) :=
    .signed .minus (Expr.derives_of_atom (by simp) (derives_leaf hl))
  exact ⟨way, l, isLeaf_of_leaf hl, read_of_leaf hword hl, hway,
    read_of_readAll (readAll_append_ok hsep hxs hminus) (hfill _ _ hsigned) (isBlank_of_bounds hb)⟩

theorem read_remove_minus (hb : Bounds before word after) (hs : opensSign before.reverse = true)
    (h : Expr.read (before ++ '-' :: word ++ after) = .ok a) :
    ∃ (way : Spine) (l : Expr), l.IsLeaf ∧ Expr.read word = .ok l ∧
      a = way.fill (.signed .minus l) ∧
      Expr.read (before ++ word ++ after) = .ok (way.fill l) := by
  have h' : Expr.read ((before ++ ['-']) ++ word ++ after) = .ok a := by simpa using h
  obtain ⟨ys, token, l, hys, hword, hl, hd⟩ := exists_leaf_of_bounds hb.concat_minus h'
  obtain ⟨xs, zs, hxs, hzs, rfl⟩ := exists_of_readAll_append (separate_of_opensSign hs _) hys
  obtain rfl : zs = [.minus] := by
    rw [readAll_symbol rfl, readAll] at hzs
    cases hzs
    rfl
  rw [List.append_assoc] at hd
  obtain ⟨way, hway, hfill⟩ := leadsTo_of_derives hd (.negated hl) (awaits_of_opensSign hs hxs)
  have hsigned : Derives .signed [token] l := Expr.derives_of_atom (by simp) (derives_leaf hl)
  exact ⟨way, l, isLeaf_of_leaf hl, read_of_leaf hword hl, hway,
    read_of_readAll (readAll_append_ok (separate_of_opensSign hs word) hxs hword)
      (hfill _ _ hsigned) (isBlank_of_bounds hb)⟩

/-- On an expression with a last entry, changing the sign succeeds and changes the last leaf of
the tree only: a leaf whose minus is in the entry loses it, any other gets one. -/
theorem Buffer.read_toggleSign {b : Buffer} {e : Entry} (h : Expr.read b.text = .ok a)
    (he : last? b.text = some e) :
    b.toggleSign.1 = true ∧ ∃ (way : Spine) (l : Expr), l.IsLeaf ∧
      if e.entry.head? = some '-' then
        Expr.read e.entry.tail = .ok l ∧ a = way.fill (.signed .minus l) ∧
          Expr.read b.toggleSign.2.text = .ok (way.fill l)
      else
        Expr.read e.entry = .ok l ∧ a = way.fill l ∧
          Expr.read b.toggleSign.2.text = .ok (way.fill (.signed .minus l)) := by
  have hsplit := last?_eq_some_iff.mp he
  generalize ht : b.text = t at hsplit h
  cases hsplit with
  | @unsigned before word after hb hs =>
    obtain ⟨way, l, hleaf, hl, hway, hread⟩ := read_insert_minus hb h
    rw [Buffer.toggleSign_of_unsigned hb hs ht]
    refine ⟨rfl, way, l, hleaf, ?_⟩
    rw [if_neg hb.head?_ne_minus]
    exact ⟨hl, hway, hread⟩
  | @signed before word after hb hs =>
    obtain ⟨way, l, hleaf, hl, hway, hread⟩ := read_remove_minus hb hs h
    rw [Buffer.toggleSign_of_signed hb hs ht]
    refine ⟨rfl, way, l, hleaf, ?_⟩
    rw [if_pos (show ('-' :: word).head? = some '-' from rfl)]
    exact ⟨hl, hway, hread⟩

theorem Buffer.read_toggleSign_two_minuses :
    (⟨"2*--3".toList, none, none⟩ : Buffer).toggleSign.1 = true ∧
      ∃ (way : Spine) (l : Expr), l.IsLeaf ∧
        if "-3".toList.head? = some '-' then
          Expr.read "-3".toList.tail = .ok l ∧
            .binary .mul (.literal ['2']) (.signed .minus (.signed .minus (.literal ['3']))) =
              way.fill (.signed .minus l) ∧
            Expr.read (⟨"2*--3".toList, none, none⟩ : Buffer).toggleSign.2.text = .ok (way.fill l)
        else
          Expr.read "-3".toList = .ok l ∧
            .binary .mul (.literal ['2']) (.signed .minus (.signed .minus (.literal ['3']))) =
              way.fill l ∧
            Expr.read (⟨"2*--3".toList, none, none⟩ : Buffer).toggleSign.2.text =
              .ok (way.fill (.signed .minus l)) :=
  @Buffer.read_toggleSign _ ⟨"2*--3".toList, none, none⟩
    ⟨"2*-".toList, "-3".toList, []⟩ (by cbv) (by decide)

end DeskCalculator
