import DeskCalculator.CommandLine.Run
import Std.Time.DateTime.Timestamp

/-!
# The program

Reads arguments, files, the clock and the input, prints what the library
answers, and ends with its exit code.
-/

set_option autoImplicit false

namespace DeskCalculator.Program

def now : IO UInt64 :=
  return UInt64.ofNat (← Std.Time.Timestamp.now).toMillisecondsSinceUnixEpoch.val.toNat

def readFile (path : Text) : IO (Option Text) := do
  try
    return Line.decode (← IO.FS.readBinFile (String.ofList path)).toList
  catch _ =>
    return none

def print (output : Text) : IO Unit := do
  let stream ← IO.getStdout
  stream.putStr (String.ofList output)
  stream.flush

partial def readLine (input : IO.FS.Stream) (before : List UInt8) : IO (Option (List UInt8)) := do
  let bytes ← input.read 1
  match bytes.toList with
  | [] => return if before.isEmpty then none else some before.reverse
  | b :: _ => if b = 10 then return some before.reverse else readLine input (b :: before)

partial def converse (input : IO.FS.Stream) (s : Machine) : IO (Option Failure) := do
  match ← readLine input [] with
  | none => return none
  | some bytes =>
    match Line.decode bytes with
    | none => return some .unreadableInput
    | some line =>
      match s.turn (← now) line with
      | .ended => return none
      | .brokenOff => return some .brokenOff
      | .answered output next =>
        print output
        converse input next

def perform (arguments : List Text) : IO (Option Failure) := do
  match Invocation.read arguments with
  | .error .refused => return some .usage
  | .error .help =>
    print (synopsis ++ ['\n'])
    return none
  | .ok i =>
    let content ← match i.options.file with
      | some path => readFile path
      | none => pure none
    match i.task content with
    | .error e => return some e
    | .ok (.print output) =>
      print output
      return none
    | .ok (.converse s) => converse (← IO.getStdin) s

end DeskCalculator.Program

def main (arguments : List String) : IO UInt32 := do
  match ← DeskCalculator.Program.perform (arguments.map String.toList) with
  | none => return 0
  | some failure =>
    IO.eprintln ("Error: " ++ String.ofList failure.message)
    return failure.exitCode
