import DeskCalculator.Proofs.Adjacency
import DeskCalculator.Proofs.Tree

/-!
# The last leaf of a tree

A token list that ends in a number or a constant derives a tree whose last leaf is that
token: the way to it goes down right operands and signs only. Whatever else derives a
signed tree can be put in the place of the leaf, and also in the place of the leaf with
a minus sign before it; the rest of the tree stays as it is.
-/

set_option autoImplicit false

namespace DeskCalculator

/-- A way down the right side of a tree, with what it passes. -/
inductive Spine where
  | here
  | signed (op : SignOp) (below : Spine)
  | binary (op : BinaryOp) (left : Expr) (below : Spine)
  deriving Repr

def Spine.fill : Spine → Expr → Expr
  | here, a => a
  | signed op below, a => .signed op (below.fill a)
  | binary op left below, a => .binary op left (below.fill a)

def Token.leaf? : Token → Option Expr
  | number text => some (.literal text)
  | constant c => some (.constant c)
  | _ => none

theorem Token.derives_leaf {token : Token} {l : Expr} (h : token.leaf? = some l) :
    Derives .atom [token] l := by
  cases token <;> cases h
  · exact .number _
  · exact .constant _

theorem derives_sum_of_derives {level : Level} {xs : List Token} {a : Expr}
    (h : Derives level xs a) (hl : level ≠ .openCall) : Derives .sum xs a := by
  cases level with
  | sum => exact h
  | product => exact .sumOfProduct h
  | power => exact .sumOfProduct (.productOfPower h)
  | signed => exact .sumOfProduct (.productOfPower (.powerOfSigned h))
  | suffixed => exact .sumOfProduct (.productOfPower (.powerOfSigned (.signedOfSuffixed h)))
  | atom => exact Expr.derives_of_atom (by simp) h
  | openCall => exact absurd rfl hl

theorem eq_leaf_of_derives {level : Level} {token : Token} {a l : Expr}
    (h : Derives level [token] a) (hl : level ≠ .openCall) (ht : token.leaf? = some l) : a = l := by
  have ha := ofTokens_of_derives (derives_sum_of_derives h hl)
  have hb := ofTokens_of_derives (derives_sum_of_derives (Token.derives_leaf ht) (by simp))
  exact Except.ok.inj (ha.symm.trans hb)

inductive Ending : List Token → Expr → Prop
  | leaf {token : Token} {l : Expr} : token.leaf? = some l → Ending [token] l
  | negated {token : Token} {l : Expr} : token.leaf? = some l →
      Ending [.minus, token] (.signed .minus l)

def Awaits (xs : List Token) : Prop := ∀ token ∈ xs.getLast?, token.closesOperand = false

theorem Awaits.ne {xs ys : List Token} (hx : Awaits xs) (hy : WellJoined ys) : xs ≠ ys := by
  rintro rfl
  obtain ⟨token, ht, hcloses⟩ := hy.closes
  rw [hx token ht] at hcloses
  cases hcloses

theorem Awaits.tail {token : Token} {xs ys : List Token} (h : Awaits (ys ++ token :: xs)) :
    Awaits xs := by
  intro t ht
  refine h t ?_
  rw [List.getLast?_append, ← List.singleton_append, List.getLast?_append, Option.mem_def.mp ht]
  rfl

namespace Ending

variable {xs ys zs ts : List Token} {token : Token} {u : Expr}

theorem not_closed (h : Ending ts u) (ht : token.leaf? = none) : ys ++ [token] ≠ xs ++ ts := by
  intro heq
  have hl := congrArg List.getLast? heq
  rw [List.getLast?_append, List.getLast?_append, List.getLast?_singleton] at hl
  cases h with
  | leaf hleaf | negated hleaf =>
    obtain rfl : token = _ := Option.some.inj hl
    rw [ht] at hleaf
    cases hleaf

theorem of_join (h : Ending ts u) (hx : WellJoined xs) (hy : WellJoined ys) (hz : Awaits zs)
    (heq : xs ++ token :: ys = zs ++ ts) :
    ∃ ws, zs = xs ++ token :: ws ∧ ys = ws ++ ts ∧ Awaits ws := by
  rcases List.append_eq_append_iff.mp heq with ⟨ws, rfl, hws⟩ | ⟨ws, rfl, hws⟩
  · cases ws with
    | nil =>
      rw [List.append_nil] at hz
      exact absurd rfl (hz.ne hx)
    | cons t ws =>
      obtain ⟨rfl, rfl⟩ := List.cons.inj hws
      exact ⟨ws, rfl, rfl, hz.tail⟩
  · -- the end would reach into the first operand, but it has room for a sign only
    have hne := hy.ne_nil
    cases h with
    | leaf hleaf =>
      cases ws with
      | nil => exact absurd (List.cons.inj hws).2.symm hne
      | cons t ws => simp at hws
    | negated hleaf =>
      cases ws with
      | nil =>
        rw [List.append_nil] at hx
        exact absurd rfl (hz.ne hx)
      | cons t ws =>
        cases ws with
        | nil => exact absurd (List.cons.inj (List.cons.inj hws).2).2.symm hne
        | cons t' ws => simp at hws

end Ending

/-- Before the end `u`, the tokens `xs` lead the way to it, and to anything signed in its place. -/
def LeadsTo (level : Level) (xs : List Token) (u a : Expr) : Prop :=
  ∃ way : Spine, a = way.fill u ∧
    ∀ ys b, Derives .signed ys b → Derives level (xs ++ ys) (way.fill b)

namespace LeadsTo

variable {level level' : Level} {xs ws : List Token} {u a b : Expr}

theorem here (u : Expr) : LeadsTo .signed [] u u := ⟨.here, rfl, fun _ _ h => h⟩

theorem promote (h : LeadsTo level xs u a)
    (hp : ∀ {ys b}, Derives level ys b → Derives level' ys b) : LeadsTo level' xs u a := by
  obtain ⟨way, rfl, hway⟩ := h
  exact ⟨way, rfl, fun ys b hd => hp (hway ys b hd)⟩

theorem signed (op : SignOp) (h : LeadsTo .signed ws u a) :
    LeadsTo .signed (op.token :: ws) u (.signed op a) := by
  obtain ⟨way, rfl, hway⟩ := h
  exact ⟨.signed op way, rfl, fun ys b hd => .signed op (hway ys b hd)⟩

theorem binary {op : BinaryOp} (h : LeadsTo level' ws u b)
    (hj : ∀ {ys b}, Derives level' ys b → Derives level (xs ++ op.token :: ys) (.binary op a b)) :
    LeadsTo level (xs ++ op.token :: ws) u (.binary op a b) := by
  obtain ⟨way, rfl, hway⟩ := h
  refine ⟨.binary op a way, rfl, fun ys b hd => ?_⟩
  rw [List.append_assoc]
  exact hj (hway ys b hd)

end LeadsTo

def EndsIn (xs : List Token) (u : Expr) : Level → Expr → Prop
  | .suffixed, a | .atom, a => xs = [] ∧ a = u
  | .openCall, _ => True
  | level, a => LeadsTo level xs u a

theorem endsIn_of_derives {level : Level} {ts : List Token} {a : Expr} (h : Derives level ts a) :
    ∀ {zs es : List Token} {u : Expr}, Ending es u → Awaits zs → ts = zs ++ es →
      EndsIn zs u level a := by
  induction h with
  | sum hlevel ha hb _ ih =>
    intro zs es u he hz heq
    obtain ⟨ws, rfl, rfl, hw⟩ := he.of_join (wellJoined_of_derives ha) (wellJoined_of_derives hb)
      hz heq
    exact (ih he hw rfl).binary fun hd => .sum hlevel ha hd
  | product hlevel ha hb _ ih =>
    intro zs es u he hz heq
    obtain ⟨ws, rfl, rfl, hw⟩ := he.of_join (wellJoined_of_derives ha) (wellJoined_of_derives hb)
      hz heq
    exact (ih he hw rfl).binary fun hd => .product hlevel ha hd
  | power ha hb _ ih =>
    intro zs es u he hz heq
    obtain ⟨ws, rfl, rfl, hw⟩ := he.of_join (wellJoined_of_derives ha) (wellJoined_of_derives hb)
      hz heq
    exact @LeadsTo.binary _ _ _ _ _ _ _ .pow (ih he hw rfl) fun hd => .power ha hd
  | @signed op xs a ha ih =>
    intro zs es u he hz heq
    cases zs with
    | cons t zs =>
      obtain ⟨rfl, rfl⟩ := List.cons.inj heq
      exact (ih he (@Awaits.tail _ _ [] hz) rfl).signed op
    | nil =>
      -- the sign belongs to the end
      cases he with
      | leaf hleaf =>
        obtain ⟨rfl, rfl⟩ := List.cons.inj heq
        cases op <;> cases hleaf
      | negated hleaf =>
        obtain ⟨hop, rfl⟩ := List.cons.inj heq
        obtain rfl : op = .minus := by cases op <;> first | rfl | cases hop
        obtain rfl := eq_leaf_of_derives ha (by simp) hleaf
        exact .here _
  | sumOfProduct _ ih => exact fun he hz heq => (ih he hz heq).promote .sumOfProduct
  | productOfPower _ ih => exact fun he hz heq => (ih he hz heq).promote .productOfPower
  | powerOfSigned _ ih => exact fun he hz heq => (ih he hz heq).promote .powerOfSigned
  | signedOfSuffixed _ ih =>
    intro zs es u he hz heq
    obtain ⟨rfl, rfl⟩ := ih he hz heq
    exact .here _
  | suffixedOfAtom _ ih => exact ih
  | suffixed _ _ | group _ _ | call _ _ =>
    intro zs es u he hz heq
    exact absurd heq (he.not_closed rfl)
  | number _ | constant _ =>
    intro zs es u he hz heq
    cases he with
    | leaf hleaf =>
      cases zs with
      | nil =>
        obtain rfl := (List.cons.inj heq).1
        cases hleaf
        exact ⟨rfl, rfl⟩
      | cons t zs => simp at heq
    | negated hleaf =>
      have hlen := congrArg List.length heq
      simp at hlen
  | firstArgument _ _ _ | nextArgument _ _ _ _ => exact fun _ _ _ => trivial

/-- The last leaf of an expression can be given another sign, or be taken out of its sign. -/
theorem leadsTo_of_derives {xs es : List Token} {u a : Expr} (h : Derives .sum (xs ++ es) a)
    (he : Ending es u) (hx : Awaits xs) : LeadsTo .sum xs u a :=
  endsIn_of_derives h he hx rfl

end DeskCalculator
