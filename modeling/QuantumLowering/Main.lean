/-
  The program: reads the settings file that the arguments name, and carries out the outcome.
-/
import QuantumLowering.CommandLine.Outcome

open QuantumLowering

/-- The operating system's reason for a failure. -/
def failureReason : IO.Error → String
  | .noFileOrDirectory .. => "No such file or directory (os error 2)"
  | .permissionDenied .. => "Permission denied (os error 13)"
  | .inappropriateType _ 21 _ => "Is a directory (os error 21)"
  | .inappropriateType .. => "Not a directory (os error 20)"
  | .invalidArgument .. => "File name too long (os error 36)"
  | e => toString e

/-- The contents of a file, or the reason why there are none. -/
def fileContents (path : String) : IO (Except String String) := do
  try
    return .ok (← IO.FS.readFile path)
  catch e =>
    return .error (failureReason e)

/-- Tells what there is to tell. -/
def tell (r : Report) : IO UInt32 := do
  IO.print r.out
  IO.eprint r.err
  return r.code.toUInt32

/-- Runs the command line. -/
def main (args : List String) : IO UInt32 := do
  let invocation := Invocation.ofArgs (← IO.getEnv "QFORGE_CONFIG") args
  let contents ← match invocation.config? with
    | some path => fileContents path
    | none => pure (.error "")
  match invocation.outcome fun _ => contents with
  | .report r => tell r
  | .write path text written failed =>
    let done ← try
        IO.FS.writeFile path text
        pure true
      catch _ => pure false
    tell (if done then written else failed)
