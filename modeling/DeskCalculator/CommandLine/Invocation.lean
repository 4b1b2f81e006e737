import DeskCalculator.Decimal.Numeral
import DeskCalculator.Json.Preferences

/-!
# The command line

A command with options around it. The arguments are taken one at a time from
the left. An option is given at most once before the command and at most once
after it, and what is given after the command wins. As long as the expression
of a command is awaited, an argument that begins with a dash and is no option
is taken for it. Two dashes end the options. A flag that asks for help ends the
reading, whatever follows it.
-/

set_option autoImplicit false

namespace DeskCalculator

inductive Command where
  | evaluate (expression : Text) (full : Bool)
  | outline (expression : Text)
  | converse
  deriving DecidableEq, Repr

structure Options where
  angleUnit : Option AngleUnit := none
  precision : Option UInt32 := none
  file : Option Text := none
  verbose : Bool := false
  deriving DecidableEq, Repr

structure Invocation where
  options : Options
  command : Command
  deriving DecidableEq, Repr

inductive Setting where
  | angle
  | precision
  | preferences
  deriving DecidableEq, Repr

inductive Flag where
  | verbose
  | full
  | help
  deriving DecidableEq, Repr

inductive Verb where
  | evaluate
  | outline
  | converse
  | help
  deriving DecidableEq, Repr

inductive Stop where
  | refused
  | help
  deriving DecidableEq, Repr

def Verb.ofName? (name : Text) : Option Verb :=
  List.lookup (String.ofList name)
    [("eval", evaluate), ("demarche", outline), ("session", converse), ("help", help)]

def Verb.takesExpression : Verb → Bool
  | evaluate | outline => true
  | converse | help => false

def Setting.ofName? (name : Text) : Option Setting :=
  List.lookup (String.ofList name)
    [("angle", angle), ("precision", precision), ("preferences", preferences)]

/-- The flag of a name; the full value can only be asked of an evaluation. -/
def Flag.ofName? (verb : Option Verb) (name : Text) : Option Flag :=
  match String.ofList name with
  | "verbose" => some verbose
  | "brut" => if verb = some .evaluate then some full else none
  | "help" => some help
  | _ => none

def Flag.ofLetter? (letter : Char) : Option Flag := if letter = 'h' then some help else none

inductive Argument where
  | separator
  | named (name : Text) (value : Option Text)
  | dashed (letters : Text)
  | plain
  deriving DecidableEq, Repr

def Argument.ofText : Text → Argument
  | ['-', '-'] => separator
  | '-' :: '-' :: rest =>
    match rest.dropWhile (· ≠ '=') with
    | _ :: value => named (rest.takeWhile (· ≠ '=')) (some value)
    | [] => named rest none
  | ['-'] => plain
  | '-' :: letters => dashed letters
  | _ => plain

namespace Options

def precision? (t : Text) : Option UInt32 := do
  let n ← Decimal.readWord? t
  if 0 ≤ n ∧ n < UInt32.size then return UInt32.ofNat n.toNat else none

def once {α : Type} (held value : Option α) : Option (Option α) :=
  if held.isSome then none else value.map some

def give (o : Options) (setting : Setting) (value : Text) : Option Options :=
  match setting with
  | .angle => (once o.angleUnit (AngleUnit.ofName? value)).map ({ o with angleUnit := · })
  | .precision => (once o.precision (precision? value)).map ({ o with precision := · })
  | .preferences =>
    (once o.file (if value.isEmpty then none else some value)).map ({ o with file := · })

def overriddenBy (outer inner : Options) : Options where
  angleUnit := inner.angleUnit <|> outer.angleUnit
  precision := inner.precision <|> outer.precision
  file := inner.file <|> outer.file
  verbose := inner.verbose || outer.verbose

end Options

structure Gathered where
  outer : Options := {}
  inner : Options := {}
  verb : Option Verb := none
  expression : Option Text := none
  full : Bool := false
  topic : Option Verb := none
  pending : Option Setting := none
  closed : Bool := false
  deriving DecidableEq, Repr

namespace Gathered

def options (g : Gathered) : Options := if g.verb.isSome then g.inner else g.outer

def setOptions (g : Gathered) (o : Options) : Gathered :=
  if g.verb.isSome then { g with inner := o } else { g with outer := o }

def awaitsExpression (g : Gathered) : Bool :=
  g.expression.isNone && g.verb.any Verb.takesExpression

def give (g : Gathered) (setting : Setting) (value : Text) : Option Gathered :=
  (g.options.give setting value).map fun o => { g.setOptions o with pending := none }

def place (g : Gathered) (argument : Text) : Option Gathered :=
  match g.pending, g.verb with
  | some setting, _ => g.give setting argument
  | none, none =>
    if g.closed then none
    else (Verb.ofName? argument).map fun verb => { g with verb := some verb }
  | none, some .help =>
    if g.topic.isSome then none
    else (Verb.ofName? argument).map fun verb => { g with topic := some verb }
  | none, some _ =>
    if g.awaitsExpression then some { g with expression := some argument } else none

def open? (g : Gathered) (setting : Setting) : Option Text → Option Gathered
  | some value => g.give setting value
  | none => some { g with pending := some setting }

def orRefused {α : Type} : Option α → Except Stop α
  | some a => .ok a
  | none => .error .refused

def raise (g : Gathered) : Flag → Except Stop Gathered
  | .verbose =>
    if g.options.verbose then .error .refused
    else .ok (g.setOptions { g.options with verbose := true })
  | .full => if g.full then .error .refused else .ok { g with full := true }
  | .help => .error .help

/-- Takes an argument with two dashes and a name. A known option may not come where a value
has to, and a flag has no value. -/
def takeNamed (g : Gathered) (argument name : Text) (value : Option Text) : Except Stop Gathered :=
  match Setting.ofName? name, Flag.ofName? g.verb name with
  | some setting, _ =>
    if g.pending.isSome then .error .refused else orRefused (g.open? setting value)
  | none, some flag =>
    if g.pending.isSome || value.isSome then .error .refused else g.raise flag
  | none, none => if g.awaitsExpression then orRefused (g.place argument) else .error .refused

/-- Takes an argument with one dash. Where an expression is awaited it is a group of flags
only if all its letters are. The one flag that has a letter ends the reading, so the first
letter decides. -/
def takeDashed (g : Gathered) (argument letters : Text) : Except Stop Gathered :=
  if g.awaitsExpression && letters.any (fun c => (Flag.ofLetter? c).isNone) then
    orRefused (g.place argument)
  else
    match letters.head?.bind Flag.ofLetter? with
    | some flag => if g.pending.isSome then .error .refused else g.raise flag
    | none => .error .refused

def step (g : Gathered) (argument : Text) : Except Stop Gathered :=
  if g.closed || g.verb = some .help then orRefused (g.place argument)
  else
    match Argument.ofText argument with
    | .separator => if g.pending.isSome then .error .refused else .ok { g with closed := true }
    | .named name value => g.takeNamed argument name value
    | .dashed letters => g.takeDashed argument letters
    | .plain => orRefused (g.place argument)

def command (g : Gathered) : Except Stop Command :=
  match g.pending, g.verb with
  | none, some .evaluate => orRefused (g.expression.map (.evaluate · g.full))
  | none, some .outline => orRefused (g.expression.map .outline)
  | none, some .converse => .ok .converse
  | none, some .help => .error .help
  | _, _ => .error .refused

end Gathered

def Invocation.read (arguments : List Text) : Except Stop Invocation := do
  let g ← arguments.foldlM Gathered.step {}
  return { options := g.outer.overriddenBy g.inner, command := ← g.command }

end DeskCalculator
