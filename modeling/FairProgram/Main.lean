import FairProgram.CommandLine

/-!
# The executable

Reads the files that the arguments name, and prints or writes what the run leaves behind.
-/

namespace FairProgram.Main

open CommandLine

/-- The reason of a failed file operation, with the number that the system gives it. -/
def reason : IO.Error → String
  | .noFileOrDirectory _ code details | .inappropriateType _ code details
  | .permissionDenied _ code details => details ++ " (os error " ++ toString code ++ ")"
  | e => toString e

def readAll (handle : IO.FS.Handle) : IO (Except ReadError (List UInt8)) := do
  try
    return .ok (← handle.readBinToEnd).toList
  catch e => return .error (.broken (reason e))

def load (path : String) : IO (Except ReadError (List UInt8)) := do
  try
    readAll (← IO.FS.Handle.mk path .read)
  catch e => return .error (.unopened (reason e))

def save (outcome : Outcome) : IO Outcome := do
  match outcome.written with
  | none => return outcome
  | some (path, text) =>
    try
      IO.FS.writeFile path text
      return outcome
    catch e =>
      let error : RunError := .unwritable (reason e)
      return { exitCode := 1, errors := "error: " ++ error.message ++ "\n" }

def filesOf (arguments : List String) : IO Files := do
  let paths := match readArguments {} arguments with
    | .ok (.compile given) => given.data.toList ++ given.classifier.toList
    | _ => []
  let contents ← paths.mapM fun path => do return (path, ← load path)
  return {
    read := fun path =>
      match contents.find? fun entry => entry.1 == path with
      | some (_, content) => content
      | none => .error (.unopened "No such file or directory (os error 2)")
    canWrite := fun _ => .ok () }

end FairProgram.Main

def FairProgram.Main.name : String := "fairprogram"

open FairProgram FairProgram.CommandLine in
def main (arguments : List String) : IO UInt32 := do
  let outcome ← Main.save (run Main.name (← Main.filesOf arguments) arguments)
  IO.print outcome.output
  IO.eprint outcome.errors
  return UInt32.ofNat outcome.exitCode
