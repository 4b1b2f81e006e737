import DeskCalculator.CommandLine.Invocation
import DeskCalculator.Desk.Dialogue

/-!
# Runs of the program

What a run prints and how it ends, as a function of its arguments, of the files
it can read and of the lines of its input. Preferences come from a file if one
is named, and options change them afterwards.
-/

set_option autoImplicit false

namespace DeskCalculator

inductive Failure where
  | usage
  | unreadableFile (path : Text)
  | invalidPreferences (path : Text)
  | unreadableInput
  | calculation (e : CalcError)
  | brokenOff
  deriving DecidableEq, Repr

def synopsis : Text :=
  "usage: [options] eval EXPRESSION [--brut] | demarche EXPRESSION | session".toList

namespace Failure

def message : Failure → Text
  | usage => synopsis
  | unreadableFile path => "lecture de ".toList ++ path
  | invalidPreferences path => "préférences invalides dans ".toList ++ path
  | unreadableInput => "lecture de stdin".toList
  | calculation e => e.message
  | brokenOff => []

/-- A program that breaks off is ended by signal 6. -/
def exitCode : Failure → UInt32
  | usage => 2
  | brokenOff => 134
  | _ => 1

end Failure

structure Outcome where
  output : Text
  failure : Option Failure
  deriving DecidableEq, Repr

inductive Task where
  | print (output : Text)
  | converse (machine : Machine)
  deriving DecidableEq

/-- The preferences for a run; `content` is what the named file holds, if it can be read. -/
def Options.preferences (o : Options) (content : Option Text) : Except Failure Preferences :=
  (base o.file).map (·.apply { angleUnit := o.angleUnit, precision := o.precision })
where
  base : Option Text → Except Failure Preferences
    | none => .ok {}
    | some path =>
      match content with
      | none => .error (.unreadableFile path)
      | some t =>
        match Preferences.readJson? t with
        | none => .error (.invalidPreferences path)
        | some p => .ok p

namespace Command

def written (full : Bool) (x : Decimal) : Text :=
  (if full then x.write else x.short Decimal.displayDigits) ++ ['\n']

def writeOutline (o : Expr.Outline) : Text :=
  "Jetons : ".toList ++ o.tokens ++ "\nArbre  : ".toList ++ o.tree ++ ['\n']

def task (p : Preferences) : Command → Except Failure Task
  | evaluate expression full =>
    match p.evaluateTextRunning expression {} with
    | some (.ok x, _) => .ok (.print (written full x))
    | some (.error e, _) => .error (.calculation e)
    | none => .error .brokenOff
  | outline expression =>
    match Expr.outline expression with
    | .ok o => .ok (.print (writeOutline o))
    | .error e => .error (.calculation e)
  | converse => .ok (.converse (Machine.start p))

end Command

def Invocation.task (i : Invocation) (content : Option Text) : Except Failure Task := do
  i.command.task (← i.options.preferences content)

/-- The dialogue over the lines of the input. A line without a text breaks it off. -/
def Machine.converse (s : Machine) : List Line → Outcome
  | [] => ⟨[], none⟩
  | line :: rest =>
    match line.text with
    | none => ⟨[], some .unreadableInput⟩
    | some text =>
      match s.turn line.time text with
      | .ended => ⟨[], none⟩
      | .brokenOff => ⟨[], some .brokenOff⟩
      | .answered output next =>
        let after := next.converse rest
        ⟨output ++ after.output, after.failure⟩

def run (arguments : List Text) (files : Text → Option Text) (lines : List Line) : Outcome :=
  match Invocation.read arguments with
  | .error .refused => ⟨[], some .usage⟩
  | .error .help => ⟨synopsis ++ ['\n'], none⟩
  | .ok i =>
    match i.task (i.options.file.bind files) with
    | .error e => ⟨[], some e⟩
    | .ok (.print output) => ⟨output, none⟩
    | .ok (.converse s) => s.converse lines

end DeskCalculator
