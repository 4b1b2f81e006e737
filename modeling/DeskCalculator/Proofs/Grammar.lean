import DeskCalculator.Expression.Evaluation
import DeskCalculator.Expression.Grammar
import DeskCalculator.Proofs.Outcome
import Mathlib.Data.Set.Subsingleton

/-!
# The reader and the grammar agree

The recursive reader accepts a token list exactly if the grammar derives it, and
with the tree that the grammar gives. One direction follows the recursion of the
reader, the other the derivation. A derivation of a sum or a product leans to the
left while the reader loops, so what is shown of it is where the loop stands
after the tokens derived.
-/

set_option autoImplicit false

namespace DeskCalculator

open DeskCalculator.Parser

/-! ### Derivations from the front of a list -/

def Reads (level : Level) (ts : List Token) (a : Expr) (rest : List Token) : Prop :=
  ∃ xs, ts = xs ++ rest ∧ Derives level xs a

theorem Reads.promote {level level' : Level} {ts rest : List Token} {a : Expr}
    (h : Reads level ts a rest) (hp : ∀ xs, Derives level xs a → Derives level' xs a) :
    Reads level' ts a rest := by
  obtain ⟨xs, hts, hd⟩ := h
  exact ⟨xs, hts, hp xs hd⟩

theorem Reads.join {level level' level'' : Level} {ts rest rest' : List Token} {token : Token}
    {a b c : Expr} (ha : Reads level ts a (token :: rest)) (hb : Reads level' rest b rest')
    (hj : ∀ xs ys, Derives level xs a → Derives level' ys b →
      Derives level'' (xs ++ token :: ys) c) : Reads level'' ts c rest' := by
  obtain ⟨xs, rfl, hxs⟩ := ha
  obtain ⟨ys, rfl, hys⟩ := hb
  exact ⟨xs ++ token :: ys, by simp, hj xs ys hxs hys⟩

theorem Reads.close {level level' : Level} {ts rest : List Token} {token : Token} {a b : Expr}
    (h : Reads level ts a (token :: rest))
    (hc : ∀ xs, Derives level xs a → Derives level' (xs ++ [token]) b) :
    Reads level' ts b rest := by
  obtain ⟨xs, rfl, hxs⟩ := h
  exact ⟨xs ++ [token], by simp, hc xs hxs⟩

theorem Reads.after {level level' : Level} {ts rest : List Token} {token : Token} {a b : Expr}
    (h : Reads level ts a rest) (ht : ∀ xs, Derives level xs a → Derives level' (token :: xs) b) :
    Reads level' (token :: ts) b rest := by
  obtain ⟨xs, rfl, hxs⟩ := h
  exact ⟨token :: xs, rfl, ht xs hxs⟩

theorem sumOp?_eq_some {token : Token} {op : BinaryOp} :
    sumOp? token = some op ↔ token = op.token ∧ op.level = .sum := by
  cases token <;> cases op <;> simp [sumOp?, BinaryOp.token, BinaryOp.level]

theorem productOp?_eq_some {token : Token} {op : BinaryOp} :
    productOp? token = some op ↔ token = op.token ∧ op.level = .product := by
  cases token <;> cases op <;> simp [productOp?, BinaryOp.token, BinaryOp.level]

theorem signOp?_eq_some {token : Token} {op : SignOp} :
    signOp? token = some op ↔ token = op.token := by
  cases token <;> cases op <;> simp [signOp?, SignOp.token]

/-! ### The loops -/

def Level.continuation : Level → List Token
  | sum => [.plus, .minus, .times, .slash, .percent, .caret, .bang]
  | product => [.times, .slash, .percent, .caret, .bang]
  | power => [.caret, .bang]
  | signed | suffixed => [.bang]
  | atom | openCall => []

def Stops (level : Level) (rest : List Token) : Prop :=
  ∀ token ∈ rest.head?, token ∉ level.continuation

theorem Stops.mono {level level' : Level} {rest : List Token} (h : Stops level rest)
    (hl : level'.continuation ⊆ level.continuation) : Stops level' rest :=
  fun token ht hm => h token ht (hl hm)

theorem stops_nil (level : Level) : Stops level [] := by simp [Stops]

theorem stops_cons {level : Level} {token : Token} {rest : List Token} :
    Stops level (token :: rest) ↔ token ∉ level.continuation := by simp [Stops]

variable {ts rest : List Token} {left : Reading Expr ts} {token : Token} {op : BinaryOp}

theorem sumTail_stop (h : ∀ token ∈ left.rest.head?, sumOp? token = none) :
    sumTail left = .ok left := by
  rw [sumTail]
  split
  · rfl
  · next token rest hrest =>
    rw [h token (by simp [hrest])]

theorem sumTail_step (hrest : left.rest = token :: rest) (hop : sumOp? token = some op) :
    sumTail left = Parser.product rest >>= fun right =>
      sumTail (left.next hrest right (.binary op left.value right.value)) := by
  rw [sumTail]
  split
  · next hnil => rw [hrest] at hnil; cases hnil
  · next hcons =>
    obtain ⟨rfl, rfl⟩ := List.cons.inj (hrest.symm.trans hcons)
    simp only [hop]

theorem productTail_stop (h : ∀ token ∈ left.rest.head?, productOp? token = none) :
    productTail left = .ok left := by
  rw [productTail]
  split
  · rfl
  · next token rest hrest =>
    rw [h token (by simp [hrest])]

theorem productTail_step (hrest : left.rest = token :: rest) (hop : productOp? token = some op) :
    productTail left = Parser.power rest >>= fun right =>
      productTail (left.next hrest right (.binary op left.value right.value)) := by
  rw [productTail]
  split
  · next hnil => rw [hrest] at hnil; cases hnil
  · next hcons =>
    obtain ⟨rfl, rfl⟩ := List.cons.inj (hrest.symm.trans hcons)
    simp only [hop]

theorem suffixes_stop (h : Stops .suffixed left.rest) : suffixes left = left := by
  rw [suffixes]
  split
  · next rest hrest =>
    rw [hrest, stops_cons] at h
    exact absurd (by simp [Level.continuation]) h
  · rfl

theorem suffixes_step (hrest : left.rest = .bang :: rest) :
    suffixes left = suffixes
      ⟨.call Expr.factorialName [left.value], rest, left.length_tail_lt hrest⟩ := by
  rw [suffixes]
  split
  · next hcons =>
    obtain ⟨-, rfl⟩ := List.cons.inj (hrest.symm.trans hcons)
    rfl
  · next hn => exact absurd hrest (hn rest)

theorem argumentsTail_comma {name : Text} {args : List Expr} (hrest : left.rest = .comma :: rest) :
    argumentsTail name args left = Parser.sum rest >>= fun next =>
      argumentsTail name (args ++ [next.value]) (left.next hrest next next.value) := by
  rw [argumentsTail]
  split
  · next hcons =>
    obtain ⟨-, rfl⟩ := List.cons.inj (hrest.symm.trans hcons)
    rfl
  · next hcons => rw [hrest] at hcons; cases hcons
  · next hn _ => exact absurd hrest (hn rest)

theorem argumentsTail_closing {name : Text} {args : List Expr}
    (hrest : left.rest = .closing :: rest) :
    argumentsTail name args left = .ok ⟨.call name args, rest, left.length_tail_lt hrest⟩ := by
  rw [argumentsTail]
  split
  · next hcons => rw [hrest] at hcons; cases hcons
  · next hcons =>
    obtain ⟨-, rfl⟩ := List.cons.inj (hrest.symm.trans hcons)
    rfl
  · next _ hn => exact absurd hrest (hn rest)

theorem suffixes_reads (left : Reading Expr ts) (hl : Reads .suffixed ts left.value left.rest) :
    Reads .suffixed ts (suffixes left).value (suffixes left).rest := by
  induction left using suffixes.induct with
  | case1 left rest hrest ih =>
    rw [suffixes_step hrest]
    rw [hrest] at hl
    exact ih (hl.close fun _ => Derives.suffixed)
  | case2 left hn =>
    rw [suffixes_stop]
    · exact hl
    · intro token ht hm
      obtain rfl : token = .bang := by simpa [Level.continuation] using hm
      obtain ⟨rest, hrest⟩ := List.head?_eq_some_iff.mp ht
      exact hn rest hrest

/-! ### What is read is derived -/

/-- What succeeds has read a tree of the level from the tokens after `front`, together
with `front`. -/
def Sound (level : Level) (front : List Token) (x : Except CalcError (Reading Expr ts)) : Prop :=
  ∀ r, x = .ok r → Reads level (front ++ ts) r.value r.rest

/-- Each function of the reader takes a derivation from the front of the tokens, and each
loop goes on from a derivation to a longer one. -/
theorem reader_sound :
    (∀ ts, Sound .sum [] (Parser.sum ts)) ∧
    (∀ ts (left : Reading Expr ts), Reads .sum ts left.value left.rest →
      Sound .sum [] (sumTail left)) ∧
    (∀ ts, Sound .product [] (Parser.product ts)) ∧
    (∀ ts (left : Reading Expr ts), Reads .product ts left.value left.rest →
      Sound .product [] (productTail left)) ∧
    (∀ ts, Sound .power [] (Parser.power ts)) ∧
    (∀ ts, Sound .signed [] (Parser.signed ts)) ∧
    (∀ ts, Sound .suffixed [] (Parser.suffixed ts)) ∧
    (∀ ts, Sound .atom [] (Parser.atom ts)) ∧
    (∀ name ts, Sound .atom [.name name, .opening] (Parser.arguments name ts)) ∧
    (∀ name args ts (last : Reading Expr ts),
      Reads .openCall (.name name :: .opening :: ts) (.call name args) last.rest →
      Sound .atom [.name name, .opening] (argumentsTail name args last)) := by
  apply Parser.sum.mutual_induct
    (fun ts => Sound .sum [] (Parser.sum ts))
    (fun ts left => Reads .sum ts left.value left.rest →
      Sound .sum [] (sumTail left))
    (fun ts => Sound .product [] (Parser.product ts))
    (fun ts left => Reads .product ts left.value left.rest →
      Sound .product [] (productTail left))
    (fun ts => Sound .power [] (Parser.power ts))
    (fun ts => Sound .signed [] (Parser.signed ts))
    (fun ts => Sound .suffixed [] (Parser.suffixed ts))
    (fun ts => Sound .atom [] (Parser.atom ts))
    (fun name ts => Sound .atom [.name name, .opening] (Parser.arguments name ts))
    (fun name args ts last =>
      Reads .openCall (.name name :: .opening :: ts) (.call name args) last.rest →
      Sound .atom [.name name, .opening] (argumentsTail name args last))
  case _ => -- a sum is a term and what the loop adds to it
    intro ts hproduct htail r hr
    rw [Parser.sum] at hr
    obtain ⟨left, hleft, hr⟩ := bind_eq_ok.mp hr
    exact htail left ((hproduct left hleft).promote fun _ => Derives.sumOfProduct) r hr
  case _ => -- no token after a term
    intro ts left hrest hl r hr
    rw [sumTail_stop (by simp [hrest])] at hr
    cases hr
    exact hl
  case _ => -- no operator of sums after a term
    intro ts left token rest hrest hop hl r hr
    rw [sumTail_stop (by simp [hrest, hop])] at hr
    cases hr
    exact hl
  case _ => -- an operator and a further term
    intro ts left token rest hrest op hop _ hproduct htail hl r hr
    rw [sumTail_step hrest hop] at hr
    obtain ⟨right, hright, hr⟩ := bind_eq_ok.mp hr
    refine htail right ?_ r hr
    obtain ⟨rfl, hlevel⟩ := sumOp?_eq_some.mp hop
    rw [hrest] at hl
    exact hl.join (hproduct right hright) fun _ _ => Derives.sum hlevel
  case _ => -- a term is a factor and what the loop adds to it
    intro ts hpower htail r hr
    rw [Parser.product] at hr
    obtain ⟨left, hleft, hr⟩ := bind_eq_ok.mp hr
    exact htail left ((hpower left hleft).promote fun _ => Derives.productOfPower) r hr
  case _ => -- no token after a factor
    intro ts left hrest hl r hr
    rw [productTail_stop (by simp [hrest])] at hr
    cases hr
    exact hl
  case _ => -- no operator of products after a factor
    intro ts left token rest hrest hop hl r hr
    rw [productTail_stop (by simp [hrest, hop])] at hr
    cases hr
    exact hl
  case _ => -- an operator and a further factor
    intro ts left token rest hrest op hop _ hpower htail hl r hr
    rw [productTail_step hrest hop] at hr
    obtain ⟨right, hright, hr⟩ := bind_eq_ok.mp hr
    refine htail right ?_ r hr
    obtain ⟨rfl, hlevel⟩ := productOp?_eq_some.mp hop
    rw [hrest] at hl
    exact hl.join (hpower right hright) fun _ _ => Derives.product hlevel
  case _ => -- a power
    intro ts hsigned hpower r hr
    rw [Parser.power] at hr
    obtain ⟨base, hbase, hr⟩ := bind_eq_ok.mp hr
    have hb := hsigned base hbase
    split at hr
    · next rest hrest =>
      obtain ⟨exponent, hexponent, hr⟩ := bind_eq_ok.mp hr
      cases hr
      rw [hrest] at hb
      exact hb.join (hpower base rest hrest exponent hexponent) fun _ _ => Derives.power
    · cases hr
      exact hb.promote fun _ => Derives.powerOfSigned
  case _ => -- no token for a signed tree
    intro hsuffixed r hr
    rw [Parser.signed] at hr
    exact (hsuffixed r hr).promote fun _ => Derives.signedOfSuffixed
  case _ => -- a sign
    intro token rest op hop hsigned r hr
    rw [Parser.signed] at hr
    simp only [hop] at hr
    obtain ⟨x, hx, hr⟩ := bind_eq_ok.mp hr
    cases hr
    obtain rfl := signOp?_eq_some.mp hop
    exact (hsigned x hx).after fun _ => Derives.signed op
  case _ => -- no sign
    intro token rest hop hsuffixed r hr
    rw [Parser.signed] at hr
    simp only [hop] at hr
    exact (hsuffixed r hr).promote fun _ => Derives.signedOfSuffixed
  case _ => -- suffixes after an atom
    intro ts hatom r hr
    rw [Parser.suffixed] at hr
    obtain ⟨x, hx, hr⟩ := bind_eq_ok.mp hr
    cases hr
    exact suffixes_reads x ((hatom x hx).promote fun _ => Derives.suffixedOfAtom)
  case _ => -- no token for an atom
    intro r hr
    rw [Parser.atom] at hr
    cases hr
  case _ => -- a number
    intro text rest r hr
    rw [Parser.atom] at hr
    cases hr
    exact ⟨[.number text], rfl, .number text⟩
  case _ => -- a constant
    intro c rest r hr
    rw [Parser.atom] at hr
    cases hr
    exact ⟨[.constant c], rfl, .constant c⟩
  case _ => -- a group
    intro rest hsum r hr
    rw [Parser.atom] at hr
    obtain ⟨inner, hinner, hr⟩ := bind_eq_ok.mp hr
    split at hr
    · next after hrest =>
      cases hr
      have hi := hsum inner hinner
      rw [hrest] at hi
      obtain ⟨xs, hxs, hd⟩ := hi
      exact ⟨.opening :: xs ++ [.closing], by simpa using hxs, .group hd⟩
    · cases hr
  case _ => -- a call without arguments
    intro name rest hclosing r hr
    rw [Parser.atom, if_pos hclosing] at hr
    cases hr
  case _ => -- a call
    intro name rest hclosing harguments r hr
    rw [Parser.atom, if_neg hclosing] at hr
    obtain ⟨call, hcall, hr⟩ := bind_eq_ok.mp hr
    cases hr
    exact harguments call hcall
  case _ => -- a name that is not called
    intro name tail hopening r hr
    rw [Parser.atom] at hr
    · cases hr
    · exact hopening
  case _ => -- a token that begins no atom
    intro token tail hnumber hconstant hopening hcall hname r hr
    rw [Parser.atom] at hr
    · cases hr
    all_goals assumption
  case _ => -- the first argument
    intro name ts hsum htail r hr
    rw [Parser.arguments] at hr
    obtain ⟨first, hfirst, hr⟩ := bind_eq_ok.mp hr
    refine htail first ?_ r hr
    obtain ⟨xs, hxs, hd⟩ := hsum first hfirst
    exact ⟨.name name :: .opening :: xs, by simpa using hxs, .firstArgument name hd⟩
  case _ => -- a further argument
    intro name args ts last rest hrest _ hsum htail hl r hr
    rw [argumentsTail_comma hrest] at hr
    obtain ⟨next, hnext, hr⟩ := bind_eq_ok.mp hr
    refine htail next ?_ r hr
    rw [hrest] at hl
    exact hl.join (hsum next hnext) fun _ _ => Derives.nextArgument
  case _ => -- the end of a call
    intro name args ts last rest hrest hl r hr
    rw [argumentsTail_closing hrest] at hr
    cases hr
    rw [hrest] at hl
    exact hl.close fun _ => Derives.call
  case _ => -- a call that is not closed
    intro name args ts last hcomma hclosing hl r hr
    rw [argumentsTail] at hr
    split at hr
    · next hrest => exact absurd hrest (hcomma _)
    · next hrest => exact absurd hrest (hclosing _)
    · cases hr

/-! ### What is derived is read -/

theorem exists_cons_of_derives {level : Level} {xs : List Token} {a : Expr}
    (h : Derives level xs a) : ∃ token tail, xs = token :: tail ∧ token ≠ .closing ∧
      (level ∈ [.suffixed, .atom, .openCall] → signOp? token = none) := by
  induction h with
  | number text => exact ⟨_, _, rfl, by simp, fun _ => rfl⟩
  | constant c => exact ⟨_, _, rfl, by simp, fun _ => rfl⟩
  | signed op _ _ => exact ⟨_, _, rfl, by cases op <;> simp [SignOp.token], by simp⟩
  | group _ _ => exact ⟨.opening, _, rfl, by simp, fun _ => rfl⟩
  | firstArgument name _ _ => exact ⟨_, _, rfl, by simp, fun _ => rfl⟩
  | suffixedOfAtom _ ih =>
    obtain ⟨token, tail, hxs, hclosing, hsign⟩ := ih
    exact ⟨token, tail, hxs, hclosing, fun _ => hsign (by simp)⟩
  | suffixed _ ih | call _ ih | nextArgument _ _ ih _ =>
    obtain ⟨token, tail, rfl, hclosing, hsign⟩ := ih
    exact ⟨token, _, rfl, hclosing, fun _ => hsign (by simp)⟩
  | sumOfProduct _ ih | productOfPower _ ih | powerOfSigned _ ih | signedOfSuffixed _ ih =>
    obtain ⟨token, tail, hxs, hclosing, _⟩ := ih
    exact ⟨token, tail, hxs, hclosing, by simp⟩
  | sum _ _ _ ih _ | product _ _ _ ih _ | power _ _ ih _ =>
    obtain ⟨token, tail, rfl, hclosing, _⟩ := ih
    exact ⟨token, _, rfl, hclosing, by simp⟩

/-- Where the reader stands after the tokens `xs`, whatever follows them. After the tokens of a
sum or a product it is about to enter the loop with the tree read so far. -/
def Complete : Level → List Token → Expr → Prop
  | .sum, xs, a => ∀ ts rest, ts = xs ++ rest → Stops .product rest →
      ∃ h, Parser.sum ts = sumTail ⟨a, rest, h⟩
  | .product, xs, a => ∀ ts rest, ts = xs ++ rest → Stops .power rest →
      ∃ h, Parser.product ts = productTail ⟨a, rest, h⟩
  | .power, xs, a => ∀ ts rest, ts = xs ++ rest → Stops .power rest →
      ∃ h, Parser.power ts = .ok ⟨a, rest, h⟩
  | .signed, xs, a => ∀ ts rest, ts = xs ++ rest → Stops .signed rest →
      ∃ h, Parser.signed ts = .ok ⟨a, rest, h⟩
  | .suffixed, xs, a => ∀ ts rest, ts = xs ++ rest →
      ∃ h, Parser.suffixed ts = .ok (suffixes ⟨a, rest, h⟩)
  | .atom, xs, a => ∀ ts rest, ts = xs ++ rest → ∃ h, Parser.atom ts = .ok ⟨a, rest, h⟩
  | .openCall, xs, a => ∃ name args body, xs = .name name :: .opening :: body ∧
      a = .call name args ∧ (∀ rest, (body ++ rest).head? ≠ some .closing) ∧
      ∀ ts rest, ts = body ++ rest → Stops .sum rest →
        ∃ last h, Parser.arguments name ts = argumentsTail name args ⟨last, rest, h⟩

theorem sumOp?_eq_none (h : token ∉ Level.sum.continuation) : sumOp? token = none := by
  cases token <;> first | rfl | exact absurd (by simp [Level.continuation]) h

theorem productOp?_eq_none (h : token ∉ Level.product.continuation) :
    productOp? token = none := by
  cases token <;> first | rfl | exact absurd (by simp [Level.continuation]) h

theorem Complete.sum_eq {xs ts rest : List Token} {a : Expr} (h : Complete .sum xs a)
    (hts : ts = xs ++ rest) (hstop : Stops .sum rest) :
    ∃ hs, Parser.sum ts = .ok ⟨a, rest, hs⟩ := by
  obtain ⟨hs, heq⟩ := h ts rest hts (hstop.mono (by decide))
  refine ⟨hs, heq.trans (sumTail_stop fun token ht => ?_)⟩
  exact sumOp?_eq_none (hstop token ht)

theorem Complete.product_eq {xs ts rest : List Token} {a : Expr} (h : Complete .product xs a)
    (hts : ts = xs ++ rest) (hstop : Stops .product rest) :
    ∃ hs, Parser.product ts = .ok ⟨a, rest, hs⟩ := by
  obtain ⟨hs, heq⟩ := h ts rest hts (hstop.mono (by decide))
  refine ⟨hs, heq.trans (productTail_stop fun token ht => ?_)⟩
  exact productOp?_eq_none (hstop token ht)

theorem stops_of_sumOp {op : BinaryOp} (h : op.level = .sum) (rest : List Token) :
    Stops .product (op.token :: rest) := by
  cases op <;> first | cases h; done | simp [stops_cons, BinaryOp.token, Level.continuation]

theorem stops_of_productOp {op : BinaryOp} (h : op.level = .product) (rest : List Token) :
    Stops .power (op.token :: rest) := by
  cases op <;> first | cases h; done | simp [stops_cons, BinaryOp.token, Level.continuation]

theorem complete_of_derives {level : Level} {xs : List Token} {a : Expr}
    (h : Derives level xs a) : Complete level xs a := by
  induction h with
  | @sum op xs ys a b hlevel _ _ iha ihb =>
    rintro ts rest rfl hstop
    obtain ⟨h, heq⟩ := iha (xs ++ op.token :: ys ++ rest) _ (by simp)
      (stops_of_sumOp hlevel (ys ++ rest))
    obtain ⟨h', heq'⟩ := ihb.product_eq rfl hstop
    rw [heq, sumTail_step rfl (sumOp?_eq_some.mpr ⟨rfl, hlevel⟩), heq']
    exact ⟨_, rfl⟩
  | sumOfProduct _ ih =>
    rintro ts rest rfl hstop
    obtain ⟨h, heq⟩ := ih.product_eq rfl hstop
    rw [Parser.sum, heq]
    exact ⟨h, rfl⟩
  | @product op xs ys a b hlevel _ _ iha ihb =>
    rintro ts rest rfl hstop
    obtain ⟨h, heq⟩ := iha (xs ++ op.token :: ys ++ rest) _ (by simp)
      (stops_of_productOp hlevel (ys ++ rest))
    obtain ⟨h', heq'⟩ := ihb (ys ++ rest) rest rfl hstop
    rw [heq, productTail_step rfl (productOp?_eq_some.mpr ⟨rfl, hlevel⟩), heq']
    exact ⟨_, rfl⟩
  | productOfPower _ ih =>
    rintro ts rest rfl hstop
    obtain ⟨h, heq⟩ := ih _ rest rfl hstop
    rw [Parser.product, heq]
    exact ⟨h, rfl⟩
  | @power xs ys a b _ _ iha ihb =>
    rintro ts rest rfl hstop
    obtain ⟨h, heq⟩ := iha (xs ++ .caret :: ys ++ rest) (.caret :: (ys ++ rest)) (by simp)
      (by simp [stops_cons, Level.continuation])
    obtain ⟨h', heq'⟩ := ihb (ys ++ rest) rest rfl hstop
    refine ⟨Nat.lt_trans h' (Nat.lt_trans (Nat.lt_succ_self _) h), ?_⟩
    rw [Parser.power, heq]
    show Parser.power (ys ++ rest) >>= _ = _
    rw [heq']
    rfl
  | powerOfSigned _ ih =>
    rintro ts rest rfl hstop
    obtain ⟨h, heq⟩ := ih _ rest rfl (hstop.mono (by decide))
    refine ⟨h, ?_⟩
    rw [Parser.power, heq]
    cases rest with
    | nil => rfl
    | cons token rest =>
      cases token <;> first | rfl | simp [stops_cons, Level.continuation] at hstop
  | @signed op xs a _ ih =>
    rintro ts rest rfl hstop
    obtain ⟨h, heq⟩ := ih _ rest rfl hstop
    refine ⟨Nat.lt_succ_of_lt h, ?_⟩
    show Parser.signed (op.token :: (xs ++ rest)) = _
    rw [Parser.signed]
    simp only [signOp?_eq_some.mpr rfl]
    rw [heq]
    rfl
  | signedOfSuffixed hd ih =>
    rintro ts rest rfl hstop
    obtain ⟨token, tail, rfl, -, hsign⟩ := exists_cons_of_derives hd
    obtain ⟨h, heq⟩ := ih _ rest rfl
    refine ⟨h, ?_⟩
    show Parser.signed (token :: (tail ++ rest)) = _
    rw [Parser.signed]
    simp only [hsign (by simp)]
    exact heq.trans (congrArg Except.ok (suffixes_stop hstop))
  | suffixed _ ih =>
    rintro ts rest hts
    obtain ⟨h, heq⟩ := ih ts (.bang :: rest) (by simp [hts])
    exact ⟨_, heq.trans (congrArg Except.ok (suffixes_step rfl))⟩
  | suffixedOfAtom _ ih =>
    rintro ts rest rfl
    obtain ⟨h, heq⟩ := ih _ rest rfl
    rw [Parser.suffixed, heq]
    exact ⟨h, rfl⟩
  | number text =>
    rintro ts rest hts
    obtain rfl : ts = .number text :: rest := hts
    exact ⟨Nat.lt_succ_self _, by rw [Parser.atom]⟩
  | constant c =>
    rintro ts rest hts
    obtain rfl : ts = .constant c :: rest := hts
    exact ⟨Nat.lt_succ_self _, by rw [Parser.atom]⟩
  | @group xs a _ ih =>
    rintro ts rest hts
    obtain rfl : ts = .opening :: (xs ++ .closing :: rest) := by simpa using hts
    have hstop : Stops .sum (.closing :: rest) := by simp [stops_cons, Level.continuation]
    obtain ⟨h, heq⟩ := ih.sum_eq rfl hstop
    refine ⟨Nat.lt_succ_of_lt (Nat.lt_trans (Nat.lt_succ_self _) h), ?_⟩
    rw [Parser.atom, heq]
    rfl
  | @call xs a _ ih =>
    rintro ts rest hts
    obtain ⟨name, args, body, rfl, rfl, hclosing, harguments⟩ := ih
    obtain rfl : ts = .name name :: .opening :: (body ++ .closing :: rest) := by simpa using hts
    obtain ⟨last, h, heq⟩ := harguments _ (.closing :: rest) rfl
      (by simp [stops_cons, Level.continuation])
    refine ⟨Nat.lt_succ_of_lt (Nat.lt_succ_of_lt (Nat.lt_trans (Nat.lt_succ_self _) h)), ?_⟩
    rw [Parser.atom, if_neg (hclosing _), heq, argumentsTail_closing rfl]
    rfl
  | @firstArgument name xs a hd ih =>
    refine ⟨name, [a], xs, rfl, rfl, ?_, ?_⟩
    · obtain ⟨token, tail, rfl, hclosing, -⟩ := exists_cons_of_derives hd
      simpa using hclosing
    · rintro ts rest rfl hstop
      obtain ⟨h, heq⟩ := ih.sum_eq rfl hstop
      rw [Parser.arguments, heq]
      exact ⟨a, h, rfl⟩
  | @nextArgument name args xs ys a _ _ ihc iha =>
    obtain ⟨name', args', body, rfl, hcall, hclosing, harguments⟩ := ihc
    obtain ⟨rfl, rfl⟩ := Expr.call.inj hcall
    refine ⟨name, args ++ [a], body ++ .comma :: ys, by simp, rfl, ?_, ?_⟩
    · intro rest
      rw [List.append_assoc]
      exact hclosing _
    · rintro ts rest rfl hstop
      obtain ⟨last, h, heq⟩ := harguments (body ++ .comma :: ys ++ rest) (.comma :: (ys ++ rest))
        (by simp) (by simp [stops_cons, Level.continuation])
      obtain ⟨h', heq'⟩ := iha.sum_eq rfl hstop
      rw [heq, argumentsTail_comma rfl, heq']
      exact ⟨a, _, rfl⟩

theorem ofTokens_of_derives {ts : List Token} {a : Expr} (h : Derives .sum ts a) :
    Expr.ofTokens ts = .ok a := by
  obtain ⟨token, tail, rfl, -, -⟩ := exists_cons_of_derives h
  obtain ⟨_, heq⟩ := (complete_of_derives h).sum_eq (List.append_nil _).symm (stops_nil .sum)
  rw [Expr.ofTokens, if_neg (by simp), heq]
  rfl

theorem Expr.read_of_derives {t : Text} {ts : List Token} {a : Expr}
    (hts : Token.readAll t = .ok ts) (hd : Derives .sum ts a) : Expr.read t = .ok a := by
  rw [Expr.read, hts]
  exact ofTokens_of_derives hd

theorem ofTokens_of_trailing {xs rest : List Token} {token : Token} {a : Expr}
    (h : Derives .sum xs a) (hstop : Stops .sum (token :: rest)) :
    Expr.ofTokens (xs ++ token :: rest) = .error (.trailingToken token.text) := by
  obtain ⟨_, heq⟩ := (complete_of_derives h).sum_eq rfl hstop
  rw [Expr.ofTokens, if_neg (by simp), heq]
  rfl

theorem derives_of_ofTokens {ts : List Token} {a : Expr} (h : Expr.ofTokens ts = .ok a)
    (hne : ts ≠ []) : Derives .sum ts a := by
  rw [Expr.ofTokens, if_neg (by simpa using hne)] at h
  obtain ⟨r, hr, h⟩ := bind_eq_ok.mp h
  obtain ⟨xs, hxs, hd⟩ := reader_sound.1 ts r hr
  split at h
  · next hrest =>
    cases h
    obtain rfl : ts = xs := by simpa [hrest] using hxs
    exact hd
  · cases h

/-- A token list is read exactly if the grammar derives it, and to the only tree that the
grammar gives it; the empty list stands for zero. -/
theorem ofTokens_eq_ok_iff (ts : List Token) (a : Expr) :
    (Expr.ofTokens ts = .ok a ↔ ts = [] ∧ a = .literal ['0'] ∨ Derives .sum ts a) ∧
      {b | Derives .sum ts b}.Subsingleton := by
  refine ⟨⟨fun h => ?_, ?_⟩, fun b hb c hc => ?_⟩
  · by_cases hts : ts = []
    · subst hts
      cases h
      exact Or.inl ⟨rfl, rfl⟩
    · exact Or.inr (derives_of_ofTokens h hts)
  · rintro (⟨rfl, rfl⟩ | h)
    · rfl
    · exact ofTokens_of_derives h
  · have hbc := (ofTokens_of_derives hb).symm.trans (ofTokens_of_derives hc)
    exact Except.ok.inj hbc

end DeskCalculator
