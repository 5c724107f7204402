import Codesmith.Text.Layout

/-!
# Requests of the command line

The command line names a command and its options. An option is written behind one or two dashes with its
long or its short name. Its value follows an equals sign or a blank, or is the next argument. A switch
needs no value. Behind `--` everything is an argument. Options of the program itself are understood by its
commands too, and help shows the values that options have by then.
-/

namespace Codesmith.Cli

/-- The options of the command that runs demonstrations. -/
structure RunOptions where
  backend : String := "asm"
  /-- Print the generated code. -/
  dump : Bool := false
  /-- The file to which the map of the code is appended, if one is named. -/
  perfmap : String := ""
  /-- The demonstrations to run; all of them if none is named. -/
  demos : List String := []
  deriving DecidableEq, Repr

/-- What help is about. -/
inductive Topic
  | program
  | run (options : RunOptions)
  | list
  deriving DecidableEq, Repr

/-- What the command line asks for. -/
inductive Request
  | run (options : RunOptions)
  | list
  /-- Help, with the logging topics that were named before. -/
  | help (topic : Topic) (verbosity : String)
  deriving DecidableEq, Repr

/-- Why a command line cannot be understood. -/
inductive UsageError
  | noArgs (arg : String)
  | unknownFlag (arg : String)
  | missingValue (arg : String)
  | badSwitch (arg : String)
  /-- An error in the arguments of a command. -/
  | inCommand (command : String) (cause : UsageError)
  deriving DecidableEq, Repr

def UsageError.message : UsageError → String
  | noArgs arg => "no args expected, got " ++ arg
  | unknownFlag arg => "parse flag: " ++ arg ++ ": no such flag"
  | missingValue arg => "parse flag: " ++ arg ++ ": flag value is required"
  | badSwitch arg => "parse flag: " ++ arg ++ ": not a bool value"
  | inCommand command cause => command ++ ": " ++ cause.message

/-! ## Arguments -/

/-- An argument of the command line. -/
inductive Arg
  | plain (text : String)
  /-- The mark behind which everything is plain. -/
  | separator
  | flag (name : String) (value : Option String)
  deriving DecidableEq, Repr

/-- Whether a character of a flag belongs to its name: the first equals sign or blank ends the name. -/
def isNameChar (c : Char) : Bool :=
  c != '=' && c != ' '

def Arg.ofFlagText (text : List Char) : Arg :=
  let name := String.ofList (text.takeWhile isNameChar)
  match text.dropWhile isNameChar with
  | [] => .flag name none
  | _ :: value => .flag name (some (String.ofList value))

/-- What kind of argument a text is. -/
def Arg.ofText (arg : String) : Arg :=
  match arg.toList with
  | ['-', '-'] => .separator
  | '-' :: '-' :: text => ofFlagText text
  | '-' :: c :: text => ofFlagText (c :: text)
  | _ => .plain arg

def switch? (text : String) : Option Bool :=
  let text := String.ofList (text.toList.map Char.toLower)
  if ["", "1", "t", "true", "y", "yes"].contains text then some true
  else if ["0", "f", "false", "n", "no"].contains text then some false
  else none

/-- Whether a flag takes the topics to be logged. -/
def isVerbosity (name : String) : Bool :=
  name == "verbosity" || name == "v"

/-- Whether a flag asks for help. -/
def isHelp (name : String) : Bool :=
  name == "help" || name == "h"

/-- The logging topics and the options with the value of a flag, if the flag takes one. -/
def setRun? (verbosity : String) (o : RunOptions) (name value : String) : Option (String × RunOptions) :=
  if isVerbosity name then some (value, o)
  else if name = "backend" ∨ name = "b" then some (verbosity, { o with backend := value })
  else if name = "perfmap" then some (verbosity, { o with perfmap := value })
  else none

/-! ## Commands -/

/-- Read the arguments of the command that runs demonstrations. -/
def readRun (verbosity : String) (o : RunOptions) : List String → Except UsageError Request
  | [] => .ok (.run o)
  | arg :: rest =>
    match Arg.ofText arg with
    | .plain demo => readRun verbosity { o with demos := o.demos ++ [demo] } rest
    | .separator => .ok (.run { o with demos := o.demos ++ rest })
    | .flag name value =>
      if isHelp name then .ok (.help (.run o) verbosity)
      else if name = "dump" then
        match switch? (value.getD "") with
        | some b => readRun verbosity { o with dump := b } rest
        | none => .error (.badSwitch arg)
      else
        let set (v : String) : String × RunOptions := (setRun? verbosity o name v).getD (verbosity, o)
        match setRun? verbosity o name "", value, rest with
        | none, _, _ => .error (.unknownFlag arg)
        | some _, some v, left => readRun (set v).1 (set v).2 left
        | some _, none, v :: left => readRun (set v).1 (set v).2 left
        | some _, none, [] => .error (.missingValue arg)

/-- Read the arguments of the command that lists demonstrations. -/
def readList (verbosity : String) : List String → Except UsageError Request
  | [] => .ok .list
  | arg :: rest =>
    match Arg.ofText arg with
    | .plain _ | .separator => .error (.noArgs arg)
    | .flag name value =>
      if isHelp name then .ok (.help .list verbosity)
      else
        match isVerbosity name, value, rest with
        | false, _, _ => .error (.unknownFlag arg)
        | true, some v, left => readList v left
        | true, none, v :: left => readList v left
        | true, none, [] => .error (.missingValue arg)

def readProgram (verbosity : String) : List String → Except UsageError Request
  | [] => .ok (.help .program verbosity)
  | arg :: rest =>
    match Arg.ofText arg with
    | .separator => .error (.noArgs arg)
    | .plain command =>
      if command = "run" then (readRun verbosity {} rest).mapError (.inCommand command)
      else if command = "list" then (readList verbosity rest).mapError (.inCommand command)
      else .error (.noArgs arg)
    | .flag name value =>
      if isHelp name then .ok (.help .program verbosity)
      else
        match isVerbosity name, value, rest with
        | false, _, _ => .error (.unknownFlag arg)
        | true, some v, left => readProgram v left
        | true, none, v :: left => readProgram v left
        | true, none, [] => .error (.missingValue arg)

/-- Read a command line. -/
def readRequest (args : List String) : Except UsageError Request :=
  readProgram "" args

/-! ## Help -/

/-- The line of a flag: its names and what it takes, what it is about, and its value. -/
def flagLine (form about value : String) : String :=
  let shown := if value = "" then "" else " (default " ++ value ++ ")"
  "    " ++ Text.padRight 20 form ++ " - " ++ about ++ shown ++ "\n"

def programFlags (verbosity : String) : String :=
  flagLine "verbosity,v" "logger verbosity topics" verbosity ++
    flagLine "help,h=[hidden]" "print command help end exit" ""

def RunOptions.flagLines (o : RunOptions) : String :=
  flagLine "backend,b" "code generation backend: asm or ssa" o.backend ++
    flagLine "dump" "print generated code" (if o.dump then "true" else "false") ++
    flagLine "perfmap" "append code map to the file" o.perfmap

/-- The section of help that a command shows of the flags of the program. -/
def parentFlags (verbosity : String) : String :=
  "\nFlags of parent command meta\n" ++ programFlags verbosity

def Topic.text (verbosity : String) : Topic → String
  | .program =>
    "meta [flags] - meta builds and runs demo functions described with the meta package\n" ++
      "\nSubcommands\n" ++ "    " ++ Text.padRight 20 "run" ++ "\n    " ++ Text.padRight 20 "list" ++ "\n" ++
      "\nFlags\n" ++ programFlags verbosity
  | .run o => "run [demo ...]\n" ++ "\nFlags\n" ++ o.flagLines ++ parentFlags verbosity
  | .list => "list [flags]\n" ++ parentFlags verbosity

end Codesmith.Cli
