import DeskCalculator.Json.Value
import DeskCalculator.Json.Writer
import Mathlib.Tactic.Common

/-!
# Written JSON is read back

A quoted text is read as the text, whatever characters it has, and a natural number as its digits.
An object that is written from keys and written values is read as the object of these keys and
values. Each written form is read in front of anything that may follow it, so they can be put
together.
-/

set_option autoImplicit false

namespace DeskCalculator

open DeskCalculator.Json DeskCalculator.JsonValue

/-- The reader finds a value at the front, and this is the rest. -/
def Finds {α τ : Type} {ts : List τ} (o : Option (Reading α ts)) (a : α) (rest : List τ) : Prop :=
  ∃ h, o = some ⟨a, rest, h⟩

/-! ### Quoted texts -/

theorem hexValue?_hexDigit : ∀ n < 16, hexValue? (hexDigit n) = some n := by decide

section

variable {t rest : Text} {parts : List StringPart} (h : Finds (stringParts t) parts rest)

include h

theorem finds_character {c : Char} (hquote : c ≠ '"') (hescape : c ≠ '\\')
    (hcontrol : ¬c.toNat < 32) : Finds (stringParts (c :: t)) (.character c :: parts) rest := by
  obtain ⟨hlt, h⟩ := h
  refine ⟨Nat.lt_succ_of_lt hlt, ?_⟩
  have hplain : ¬(decide (c = '\\') || decide (c.toNat < 32)) = true := by simp [hescape, hcontrol]
  rw [stringParts, if_neg hplain, h]
  · rfl
  · exact hquote
  · exact fun _ _ _ _ _ hc => absurd hc hescape
  · exact fun _ _ hc => absurd hc hescape

theorem finds_escaped {e c : Char} (he : escaped? e = some c) (hunit : e ≠ 'u') :
    Finds (stringParts ('\\' :: e :: t)) (.character c :: parts) rest := by
  obtain ⟨hlt, h⟩ := h
  refine ⟨Nat.lt_succ_of_lt (Nat.lt_succ_of_lt hlt), ?_⟩
  rw [stringParts, he, h]
  · rfl
  · exact fun _ _ _ _ _ hc => absurd hc hunit

theorem finds_codeUnit {n : Nat} (hn : n < 256) :
    Finds (stringParts ('\\' :: 'u' :: '0' :: '0' :: hexDigit (n / 16) :: hexDigit (n % 16) :: t))
      (.codeUnit n :: parts) rest := by
  obtain ⟨hlt, h⟩ := h
  have hhigh := hexValue?_hexDigit (n / 16) (by omega)
  have hlow := hexValue?_hexDigit (n % 16) (by omega)
  have hunit : codeUnit? '0' '0' (hexDigit (n / 16)) (hexDigit (n % 16)) = some n := by
    rw [codeUnit?, hhigh, hlow]
    show some (((0 * 16 + 0) * 16 + n / 16) * 16 + n % 16) = some n
    congr 1
    omega
  refine ⟨Nat.lt_of_lt_of_le hlt (by simp only [List.length_cons]; omega), ?_⟩
  rw [stringParts, hunit, h]
  rfl

end

/-- What follows the part that stands for a character is not changed by it. -/
def StandsFor (part : StringPart) (c : Char) : Prop :=
  ∀ parts, textOfParts (part :: parts) = (textOfParts parts).map (c :: ·)

theorem standsFor_character (c : Char) : StandsFor (.character c) c := fun _ => rfl

/-- A control character is no surrogate, so it does not wait for another code unit. -/
theorem standsFor_codeUnit {c : Char} (h : c.toNat < 32) : StandsFor (.codeUnit c.toNat) c := by
  intro parts
  have hhigh : isHighSurrogate c.toNat = false := by simp [isHighSurrogate]; omega
  have hlow : isLowSurrogate c.toNat = false := by simp [isLowSurrogate]; omega
  rcases parts with - | ⟨d | n, parts⟩ <;> simp [textOfParts, hhigh, hlow, Char.ofNat_toNat]

theorem escape_cases (c : Char) :
    (∃ e, escape c = ['\\', e] ∧ escaped? e = some c ∧ e ≠ 'u') ∨
    (escape c = ['\\', 'u', '0', '0', hexDigit (c.toNat / 16), hexDigit (c.toNat % 16)] ∧
      c.toNat < 32) ∨
    (escape c = [c] ∧ c ≠ '"' ∧ c ≠ '\\' ∧ ¬c.toNat < 32) := by
  have hofNat : ∀ {n}, c.toNat = n → Char.ofNat n = c := fun hn => hn ▸ Char.ofNat_toNat c
  fun_cases escape c with
  | case1 h => exact .inl ⟨'"', rfl, congrArg some h.symm, by decide⟩
  | case2 _ h => exact .inl ⟨'\\', rfl, congrArg some h.symm, by decide⟩
  | case3 _ _ h => exact .inl ⟨'n', rfl, congrArg some h.symm, by decide⟩
  | case4 _ _ _ h => exact .inl ⟨'r', rfl, congrArg some h.symm, by decide⟩
  | case5 _ _ _ _ h => exact .inl ⟨'t', rfl, congrArg some h.symm, by decide⟩
  | case6 _ _ _ _ _ h => exact .inl ⟨'b', rfl, congrArg some (hofNat h), by decide⟩
  | case7 _ _ _ _ _ _ h => exact .inl ⟨'f', rfl, congrArg some (hofNat h), by decide⟩
  | case8 _ _ _ _ _ _ _ h => exact .inr (.inl ⟨rfl, h⟩)
  | case9 hquote hescape _ _ _ _ _ h => exact .inr (.inr ⟨rfl, hquote, hescape, h⟩)

theorem exists_finds_escape (c : Char) {t rest : Text} {parts : List StringPart}
    (h : Finds (stringParts t) parts rest) :
    ∃ part, StandsFor part c ∧ Finds (stringParts (escape c ++ t)) (part :: parts) rest := by
  rcases escape_cases c with
    ⟨e, heq, he, hunit⟩ | ⟨heq, hcontrol⟩ | ⟨heq, hquote, hescape, hcontrol⟩ <;> rw [heq]
  · exact ⟨_, standsFor_character c, finds_escaped h he hunit⟩
  · exact ⟨_, standsFor_codeUnit hcontrol, finds_codeUnit h (by omega)⟩
  · exact ⟨_, standsFor_character c, finds_character h hquote hescape hcontrol⟩

theorem exists_finds_quoted (t rest : Text) : ∃ parts,
    Finds (stringParts (t.flatMap escape ++ '"' :: rest)) parts rest ∧
      textOfParts parts = some t := by
  induction t with
  | nil => exact ⟨[], ⟨Nat.lt_succ_self _, rfl⟩, rfl⟩
  | cons c t ih =>
    obtain ⟨parts, hparts, htext⟩ := ih
    obtain ⟨part, hpart, hfinds⟩ := exists_finds_escape c hparts
    refine ⟨part :: parts, ?_, by rw [hpart, htext]; rfl⟩
    rwa [List.flatMap_cons, List.append_assoc]

/-! ### Blanks and marks -/

variable {t rest : Text}

theorem finds_symbol {c : Char} (hc : JsonValue.isBlank c = false) (rest : Text) :
    Finds (symbol (c :: rest)) c rest := by
  refine ⟨Nat.lt_succ_self _, ?_⟩
  rw [symbol, hc]
  rfl

theorem Finds.symbol_blank {b c : Char} (hb : JsonValue.isBlank b = true)
    (h : Finds (symbol t) c rest) : Finds (symbol (b :: t)) c rest := by
  obtain ⟨hlt, h⟩ := h
  refine ⟨Nat.lt_succ_of_lt hlt, ?_⟩
  rw [symbol, if_pos hb, h]
  rfl

theorem Finds.value_blank {b : Char} (hb : JsonValue.isBlank b = true) {v : JsonValue}
    (h : Finds (value? t) v rest) : Finds (value? (b :: t)) v rest := by
  obtain ⟨hlt, h⟩ := h
  refine ⟨Nat.lt_succ_of_lt hlt, ?_⟩
  rw [value?, if_pos hb, h]
  rfl

theorem isBlank_of_mem_newLine (level : Nat) : ∀ c ∈ newLine level, JsonValue.isBlank c = true := by
  intro c hc
  rcases List.mem_cons.mp hc with rfl | hc
  · rfl
  · rw [(List.mem_replicate.mp hc).2]
    rfl

theorem Finds.symbol_blanks {bs : Text} (hbs : ∀ b ∈ bs, JsonValue.isBlank b = true) {c : Char}
    (h : Finds (symbol t) c rest) : Finds (symbol (bs ++ t)) c rest := by
  induction bs with
  | nil => exact h
  | cons b bs ih =>
    exact (ih fun b' hb' => hbs b' (List.mem_cons_of_mem _ hb')).symbol_blank
      (hbs b List.mem_cons_self)

/-! ### Values that are written -/

def ReadsAs (t : Text) (v : JsonValue) : Prop :=
  ∀ mark rest, mark = ',' ∨ mark = '\n' → Finds (value? (t ++ mark :: rest)) v (mark :: rest)

theorem finds_quote (t rest : Text) : Finds (value? (quote t ++ rest)) (.string (some t)) rest := by
  obtain ⟨parts, ⟨hlt, hparts⟩, htext⟩ := exists_finds_quoted t rest
  have hquote : quote t ++ rest = '"' :: (t.flatMap escape ++ '"' :: rest) := by simp [quote]
  rw [hquote]
  refine ⟨Nat.lt_succ_of_lt hlt, ?_⟩
  rw [value?, if_neg (by decide), if_pos rfl, hparts]
  show some (Reading.after _ (Reading.map _ _)) = _
  simp only [Reading.after, Reading.map, htext]

theorem readsAs_quote (t : Text) : ReadsAs (quote t) (.string (some t)) :=
  fun _ _ _ => finds_quote t _

theorem tail_eq_nil_of_toDigits {n : Nat} {ds : Text} (h : Nat.toDigits 10 n = '0' :: ds) :
    ds = [] := by
  induction n using Nat.strongRecOn generalizing ds with
  | ind n ih =>
    by_cases hn : n < 10
    · rw [Nat.toDigits_of_lt_base hn] at h
      exact (List.cons.inj h).2.symm
    · obtain ⟨d, ds', hfirst⟩ :=
        List.exists_cons_of_ne_nil (Nat.toDigits_ne_nil (b := 10) (n := n / 10))
      rw [Nat.toDigits_of_base_le (by decide) (Nat.not_lt.mp hn), hfirst] at h
      obtain ⟨rfl, -⟩ := List.cons.inj h
      -- what remains without the last digit would be zero
      have hzero := congrArg (Nat.ofDigitChars 10 · 0) hfirst
      simp only [ih (n / 10) (by omega) hfirst, Nat.ofDigitChars_ten_toDigits] at hzero
      have hvalue : Nat.ofDigitChars 10 ['0'] 0 = 0 := rfl
      omega

theorem ne_of_isDigit {c d : Char} (hd : d.isDigit = true) (hc : c.isDigit = false) : d ≠ c := by
  rintro rfl
  rw [hd] at hc
  cases hc

theorem afterFirst?_toDigits {n : Nat} {d : Char} {ds : Text} (h : Nat.toDigits 10 n = d :: ds)
    {mark : Char} (hmark : mark = ',' ∨ mark = '\n') (rest : Text) :
    afterFirst? d (ds ++ mark :: rest) = some ds := by
  have hdigits : ∀ c ∈ d :: ds, c.isDigit = true := fun c hc =>
    Nat.isDigit_of_mem_toDigits (by decide) (by decide) (h ▸ hc)
  have hd := hdigits d List.mem_cons_self
  have hwhole : (if d = '0' then [] else (ds ++ mark :: rest).takeWhile Char.isDigit) = ds := by
    split
    · next hzero =>
      subst hzero
      exact (tail_eq_nil_of_toDigits h).symm
    · rw [List.takeWhile_append_of_pos fun c hc => hdigits c (List.mem_cons_of_mem _ hc),
        List.takeWhile_cons_of_neg (by rcases hmark with rfl | rfl <;> decide), List.append_nil]
  have hfraction : fraction? (mark :: rest) = some [] := by rcases hmark with rfl | rfl <;> rfl
  have hexponent : exponent? (mark :: rest) = some [] := by rcases hmark with rfl | rfl <;> rfl
  unfold afterFirst?
  rw [if_neg (ne_of_isDigit hd rfl), if_pos hd, afterDigit?]
  simp only [hwhole, List.drop_left, hfraction, List.length_nil, List.drop_zero, hexponent,
    Option.bind_eq_bind, Option.bind_some, List.append_nil]
  rfl

theorem readsAs_natural (n : Nat) : ReadsAs (writeNatural n) (.number (Nat.toDigits 10 n)) := by
  intro mark rest hmark
  obtain ⟨d, ds, hdigits⟩ := List.exists_cons_of_ne_nil (Nat.toDigits_ne_nil (b := 10) (n := n))
  have hd : d.isDigit = true :=
    Nat.isDigit_of_mem_toDigits (by decide) (by decide) (hdigits ▸ List.mem_cons_self)
  have hblank : JsonValue.isBlank d = false := by
    simp [JsonValue.isBlank, ne_of_isDigit hd (c := ' ') rfl, ne_of_isDigit hd (c := '\n') rfl,
      ne_of_isDigit hd (c := '\t') rfl, ne_of_isDigit hd (c := '\r') rfl]
  have hafter := afterFirst?_toDigits hdigits hmark rest
  rw [writeNatural, hdigits, List.cons_append]
  refine ⟨by simp only [List.length_append, List.length_cons]; omega, ?_⟩
  rw [value?, if_neg (by rw [hblank]; decide), if_neg (ne_of_isDigit hd rfl),
    if_neg (ne_of_isDigit hd rfl), if_neg (ne_of_isDigit hd rfl), if_pos (by simp [hd]), number?,
    hafter]
  simp only [Option.map_some, List.drop_left]

/-! ### Objects -/

theorem finds_key (level : Nat) (key rest : Text) :
    Finds (key? (newLine level ++ (quote key ++ ':' :: rest))) (some key) rest := by
  have hquote : quote key ++ ':' :: rest = '"' :: (key.flatMap escape ++ '"' :: ':' :: rest) := by
    simp [quote]
  rw [hquote]
  obtain ⟨parts, ⟨hparts, hquoted⟩, htext⟩ := exists_finds_quoted key (':' :: rest)
  obtain ⟨hopening, hsymbol⟩ := Finds.symbol_blanks (isBlank_of_mem_newLine level)
    (finds_symbol (c := '"') rfl (key.flatMap escape ++ '"' :: ':' :: rest))
  obtain ⟨hcolon, hmark⟩ := finds_symbol (c := ':') rfl rest
  refine ⟨Nat.lt_trans hcolon (Nat.lt_trans hparts hopening), ?_⟩
  simp only [key?, hsymbol, Option.bind_eq_bind, Option.bind_some, hquoted, hmark, ne_eq,
    not_true_eq_false, if_false, Reading.map, htext]
  rfl

section

variable {key : Option Text} {v : JsonValue} {afterKey afterValue : Text}
  (hkey : Finds (key? t) key afterKey) (hvalue : Finds (value? afterKey) v afterValue)

include hkey hvalue

theorem Finds.last_member (hmark : Finds (symbol afterValue) '\x7d' rest) :
    Finds (members? t) [(key, v)] rest := by
  obtain ⟨hlt1, hkey⟩ := hkey
  obtain ⟨hlt2, hvalue⟩ := hvalue
  obtain ⟨hlt3, hmark⟩ := hmark
  refine ⟨Nat.lt_trans hlt3 (Nat.lt_trans hlt2 hlt1), ?_⟩
  rw [members?, hkey]
  simp only [Option.bind_eq_bind, Option.bind_some, hvalue, hmark]
  rfl

theorem Finds.member {afterMark : Text} {more : List (Option Text × JsonValue)}
    (hmark : Finds (symbol afterValue) ',' afterMark)
    (hmore : Finds (members? afterMark) more rest) :
    Finds (members? t) ((key, v) :: more) rest := by
  obtain ⟨hlt1, hkey⟩ := hkey
  obtain ⟨hlt2, hvalue⟩ := hvalue
  obtain ⟨hlt3, hmark⟩ := hmark
  obtain ⟨hlt4, hmore⟩ := hmore
  refine ⟨Nat.lt_trans hlt4 (Nat.lt_trans hlt3 (Nat.lt_trans hlt2 hlt1)), ?_⟩
  rw [members?, hkey]
  simp only [Option.bind_eq_bind, Option.bind_some, hvalue, hmark, if_pos, hmore]
  rfl

end

structure Member where
  key : Text
  text : Text
  value : JsonValue
  readsAs : ReadsAs text value

namespace Member

def written (m : Member) : Text × Text := (m.key, m.text)

def read (m : Member) : Option Text × JsonValue := (some m.key, m.value)

def line (level : Nat) (m : Member) : Text :=
  newLine (level + 1) ++ quote m.key ++ [':', ' '] ++ m.text

theorem finds_value (m : Member) {mark : Char} (hmark : mark = ',' ∨ mark = '\n') (rest : Text) :
    Finds (value? (' ' :: (m.text ++ mark :: rest))) m.value (mark :: rest) :=
  (m.readsAs mark rest hmark).value_blank rfl

theorem line_append (level : Nat) (m : Member) (rest : Text) :
    m.line level ++ rest =
      newLine (level + 1) ++ (quote m.key ++ ':' :: ' ' :: (m.text ++ rest)) := by
  simp [line]

theorem finds_members (level : Nat) (m : Member) (ms : List Member) (rest : Text) :
    Finds (members? (Text.join [','] ((m :: ms).map (line level)) ++
      (newLine level ++ '\x7d' :: rest))) ((m :: ms).map read) rest := by
  induction ms generalizing m with
  | nil =>
    show Finds (members? (m.line level ++ (newLine level ++ '\x7d' :: rest))) _ _
    rw [line_append]
    exact (finds_key _ _ _).last_member (m.finds_value (.inr rfl) _)
      (Finds.symbol_blanks (isBlank_of_mem_newLine level) (finds_symbol rfl rest))
  | cons next ms ih =>
    show Finds (members? (m.line level ++ [','] ++
      Text.join [','] ((next :: ms).map (line level)) ++ (newLine level ++ '\x7d' :: rest))) _ _
    rw [List.append_assoc, List.append_assoc, line_append]
    exact (finds_key _ _ _).member (m.finds_value (.inl rfl) _) (finds_symbol rfl _) (ih next)

end Member

theorem Finds.empty_object (h : Finds (symbol t) '\x7d' rest) :
    Finds (value? ('\x7b' :: t)) (.object []) rest := by
  obtain ⟨hlt, h⟩ := h
  refine ⟨Nat.lt_succ_of_lt hlt, ?_⟩
  rw [value?, if_neg (by decide), if_neg (by decide), if_neg (by decide), if_pos rfl, h]
  rfl

theorem Finds.object {c : Char} {afterFirst : Text} (h : Finds (symbol t) c afterFirst)
    (hc : c ≠ '\x7d') {members : List (Option Text × JsonValue)}
    (hmembers : Finds (members? t) members rest) :
    Finds (value? ('\x7b' :: t)) (.object members) rest := by
  obtain ⟨hlt, h⟩ := h
  obtain ⟨hlt', hmembers⟩ := hmembers
  refine ⟨Nat.lt_succ_of_lt hlt', ?_⟩
  rw [value?, if_neg (by decide), if_neg (by decide), if_neg (by decide), if_pos rfl, h]
  simp only [Option.bind_eq_bind, Option.bind_some, if_neg hc, hmembers]
  rfl

theorem finds_object (level : Nat) (ms : List Member) (rest : Text) :
    Finds (value? (writeObject level (ms.map Member.written) ++ rest))
      (.object (ms.map Member.read)) rest := by
  have hwrite : writeObject level (ms.map Member.written) ++ rest =
      '\x7b' :: (Text.join [','] (ms.map (Member.line level)) ++
        (newLine level ++ '\x7d' :: rest)) := by
    rw [writeObject, List.map_map]
    show ['\x7b'] ++ Text.join [','] (ms.map (Member.line level)) ++ newLine level ++ ['\x7d'] ++
      rest = _
    simp
  have hclosing : Finds (symbol (newLine level ++ '\x7d' :: rest)) '\x7d' rest :=
    Finds.symbol_blanks (isBlank_of_mem_newLine level) (finds_symbol rfl rest)
  rw [hwrite]
  cases ms with
  | nil => exact hclosing.empty_object
  | cons m ms =>
    obtain ⟨afterFirst, hfirst⟩ : ∃ afterFirst,
        Text.join [','] ((m :: ms).map (Member.line level)) ++ (newLine level ++ '\x7d' :: rest) =
          newLine (level + 1) ++ '"' :: afterFirst := by
      cases ms <;> exact ⟨_, by simp [Text.join, Member.line, quote]; rfl⟩
    have hmembers := Member.finds_members level m ms rest
    rw [hfirst] at hmembers ⊢
    have hopening := Finds.symbol_blanks (isBlank_of_mem_newLine (level + 1))
      (finds_symbol (c := '"') rfl afterFirst)
    exact hopening.object (by decide) hmembers

theorem read_object (ms : List Member) :
    JsonValue.read? (writeObject 0 (ms.map Member.written)) =
      some (.object (ms.map Member.read)) := by
  have h := finds_object 0 ms []
  rw [List.append_nil] at h
  obtain ⟨hlt, h⟩ := h
  rw [JsonValue.read?, h]
  rfl

end DeskCalculator
