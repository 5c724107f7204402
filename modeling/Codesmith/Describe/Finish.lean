import Codesmith.Code.Basic
import Codesmith.Describe.Flow

/-!
# Starting and finishing descriptions

A description starts with a name and a signature, and it is finished once. Finishing returns from the
end of the function if that can be reached, and compiles the code.
-/

namespace Codesmith.Describe

/-- How code is to be made. -/
structure Config where
  /-- The name of the back end. -/
  backend : String := ""
  /-- Why the profile of the finished code cannot be written, if so. -/
  profileError : Option String := none
  deriving Repr

/-- Why a description cannot start. -/
inductive StartError
  | unknownBackend (name : String)
  | signature (cause : Rejection)
  deriving Repr

def StartError.message : StartError → String
  | unknownBackend name => "new backend: " ++ Text.quote name ++ ": unknown backend"
  | signature cause => cause.message .empty

/-- The first type of a signature that has no values in registers. -/
def unfit? (sig : Signature) (position : Position) : Option Rejection :=
  match sig.params.find? fun t => !t.isScalar with
  | some t => some (.unsupported "argument" t position)
  | none =>
    if sig.result.isVoid || sig.result.isScalar then none
    else some (.unsupported "result" sig.result position)

/-- Make variables of the arguments from argument `i` on. -/
def argVars (position : Position) : Nat → List Ty → Edit Unit
  | _, [] => return ()
  | i, t :: ts => do
    let s ← get
    let (ref, g) ← s.gen.arg i
    set { s with gen := g }
    let _ ← newVar t ref position
    argVars position (i + 1) ts

def Sketch.start (config : Config) (number : Nat) (name : String) (sig : Signature)
    (position : Position) : Except Fault (Except StartError Sketch) :=
  match Gen.Backend.ofName? config.backend with
  | none => .ok (.error (.unknownBackend config.backend))
  | some b =>
    match unfit? sig position with
    | some e => .ok (.error (.signature e))
    | none =>
      let gen := ((Gen.Generator.ofBackend b).setPosition (some position)).start name sig |>.2
      let s : Sketch := { id := ⟨number, name⟩, sig, gen, profileError := config.profileError }
      (argVars position 0 sig.params s).map fun r => .ok r.2

/-- Why a description cannot be finished. -/
inductive FinishError
  /-- A call was rejected. -/
  | rejected (cause : Rejection)
  | failed (func : String) (cause : Gen.Failure)
  | profile (cause : String)
  deriving Repr

/-- The wording of an error; the memory is that of the constants. -/
def FinishError.message (m : Memory) : FinishError → String
  | rejected cause => cause.message m
  | failed func cause => "finalize " ++ func ++ ": " ++ cause.message
  | profile cause => "write profile: " ++ cause

def finish (position : Position) : Edit (Except FinishError Code) := do
  let s ← get
  if s.finished then return .error (.rejected (.useAfterFinalize "finalize" position))
  modify fun s => { s with finished := true }
  match s.error with
  | some e => return .error (.rejected e)
  | none =>
    let ended ← s.gen.terminated
    if !s.dead && !ended then terminate (.ret none) position
    let s ← get
    let (g, result) ← s.gen.finalize
    set { s with gen := g }
    match result with
    | .error e => return .error (.failed s.id.name e)
    | .ok program =>
      match s.profileError with
      | some e => return .error (.profile e)
      | none => return .ok ⟨s.id.name, s.sig, g.backend, program⟩

/-! ## Building -/

/-- Why a function cannot be built. -/
inductive BuildError
  | start (cause : StartError)
  | finish (cause : FinishError)
  deriving Repr

/-- The wording of an error; the memory is that of the constants. -/
def BuildError.message (m : Memory) : BuildError → String
  | start cause => "new func: " ++ cause.message
  | finish cause => cause.message m

/-- Describe and finish a function. The state of the description comes with the result. -/
def build {σ : Type} (config : Config) (name : String) (sig : Signature) (describe : Describe σ Unit)
    (own : σ) (position : Position) : Except Fault (Except BuildError Code) × σ :=
  match Sketch.start config 0 name sig position with
  | .error f => (.error f, own)
  | .ok (.error e) => (.ok (.error (.start e)), own)
  | .ok (.ok s) =>
    let program : Describe σ (Except FinishError Code) := do
      describe
      here (finish position)
    match program ⟨#[s], own⟩ with
    | (.error f, w) => (.error f, w.own)
    | (.ok (.error e), w) => (.ok (.error (.finish e)), w.own)
    | (.ok (.ok c), w) => (.ok (.ok c), w.own)

end Codesmith.Describe
