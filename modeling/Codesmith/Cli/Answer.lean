import Codesmith.Cli.Demo
import Codesmith.Cli.Request

/-!
# Answers of the command line

The answer to a request is what is printed, the map of the code that was generated, and the error that
ended it, if there was one. What can be done with the file for the map is found out before.
-/

namespace Codesmith.Cli

open Host

/-- What can be done with the file to which the map of the code is appended. -/
inductive FileAccess
  | writable
  | unopened (cause : String)
  /-- The file can be opened, and nothing can be written to it. -/
  | unwritable (cause : String)
  deriving DecidableEq, Repr

/-- Why the map of the code cannot be written to the file at a path, if so. -/
def FileAccess.writeError? (path : String) : FileAccess → Option String
  | unwritable cause => some ("write " ++ path ++ ": " ++ cause)
  | _ => none

structure Answer where
  output : String := ""
  /-- The map of the generated code. -/
  profile : String := ""
  error : Option String := none
  deriving DecidableEq, Repr

/-- The status with which the program exits. -/
def Answer.status (a : Answer) : UInt32 :=
  if a.error.isSome then 1 else 0

def Answer.errorLines (a : Answer) : List String :=
  a.error.toList.map ("error: " ++ ·)

/-- The answer with more in front of it. -/
def Answer.after (a : Answer) (output profile : String) : Answer :=
  { a with output := output ++ a.output, profile := profile ++ a.profile }

/-- More steps than any call of a demonstration takes. -/
def demoFuel : Nat := 1000000

def caseLine (name : String) (c : DemoCase) (result : HostValue) (m : Memory) : String :=
  let mark := if result = c.expected then "ok" else "FAIL"
  Text.padRight 4 mark ++ " " ++ name ++ HostValue.bracketed (c.args.map (·.shown m)) ++ " = " ++
    result.shown m ++ " (want " ++ c.expected.shown m ++ ")\n"

/-- Make the calls of a demonstration, then answer the rest. -/
def runCases (code : Code) (m : Memory) : List DemoCase → (Unit → Answer) → Answer
  | [], rest => rest ()
  | c :: cs, rest =>
    match code.call demoFuel c.args m with
    | .error e => { error := some ("run: call " ++ code.name ++ ": " ++ e.message) }
    | .ok (.fault f _) => { error := some ("run: call " ++ code.name ++ ": " ++ f.message) }
    | .ok .unfinished => { error := some ("run: call " ++ code.name ++ ": unfinished") }
    | .ok (.done result m') =>
      (runCases code m' cs rest).after (caseLine code.name c result m) ""

/-- Build a demonstration, and answer with its code or the reason why there is none. -/
def buildDemo (o : RunOptions) (profileError : Option String) (d : Demo) : Except String Code :=
  match (Describe.build { backend := o.backend, profileError } d.name d.sig d.describe () ⟨d.name, 1⟩).1 with
  | .error f => .error f.message
  | .ok (.error e) => .error (e.message demoMemory)
  | .ok (.ok c) => .ok c

/-- What is printed of generated code on demand. -/
def dumpText (o : RunOptions) (c : Code) : String :=
  if o.dump then c.name ++ "\n" ++ (c.program.listing.toOption.getD "") ++ "\n" else ""

def runDemos (o : RunOptions) (profileError : Option String) : List String → Answer
  | [] => {}
  | n :: ns =>
    match demo? n with
    | none => { error := some ("run: no such demo: " ++ n) }
    | some d =>
      match buildDemo o profileError d with
      | .error e => { error := some ("run: build " ++ n ++ ": " ++ e) }
      | .ok c =>
        (runCases c demoMemory d.cases fun _ => runDemos o profileError ns).after (dumpText o c) c.profile

/-- The lines that list all demonstrations. -/
def listing : String :=
  String.join (demos.map fun d => Text.padRight 10 d.name ++ " " ++ d.sig.ty.shown ++ "\n")

def Request.file? : Request → Option String
  | .run o => if o.perfmap = "" then none else some o.perfmap
  | _ => none

/-- The answer to a request, given what can be done with its file. -/
def Request.answer (file : FileAccess) : Request → Answer
  | .list => { output := listing }
  | .help topic verbosity => { output := topic.text verbosity }
  | .run o =>
    match file with
    | .unopened cause => { error := some ("run: open perfmap: open " ++ o.perfmap ++ ": " ++ cause) }
    | _ =>
      runDemos o (file.writeError? o.perfmap)
        (if o.demos.isEmpty then demos.map Demo.name else o.demos)

end Codesmith.Cli
