import Codesmith.Cli.Answer

/-!
# The command line

Reads the request, opens the file that it names, and prints the answer.
-/

open Codesmith.Cli

/-- Why a file could not be opened or written. -/
def fileFailure : IO.Error → String
  | .noFileOrDirectory .. => "no such file or directory"
  | .permissionDenied .. => "permission denied"
  | .inappropriateType .. => "is a directory"
  | .resourceExhausted .. => "no space left on device"
  | e => toString e

def appendTo (path profile : String) : IO FileAccess := do
  match ← (IO.FS.Handle.mk path .append).toBaseIO with
  | .error e => return .unopened (fileFailure e)
  | .ok h =>
    match ← (do h.putStr profile; h.flush : IO Unit).toBaseIO with
    | .error e => return .unwritable (fileFailure e)
    | .ok () => return .writable

def deliver (a : Answer) : IO UInt32 := do
  IO.print a.output
  for line in a.errorLines do
    IO.eprintln line
  return a.status

/-- The program. -/
def main (args : List String) : IO UInt32 := do
  match readRequest args with
  | .error e => deliver { error := some e.message }
  | .ok request =>
    match request.file? with
    | none => deliver (request.answer .writable)
    | some path =>
      let file ← appendTo path (request.answer .writable).profile
      deliver (request.answer file)
