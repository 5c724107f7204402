import Codesmith.Machine.Assembler
import Codesmith.Ssa.Program

/-!
# Failures of code generation

Two back ends build code from the same calls. The first call that breaks a rule is remembered, and
the function is refused when it is finished. A failure tells the back end, the function, the block
and the source position with the reason.
-/

namespace Codesmith.Gen

/-- The ways to generate code. -/
inductive Backend
  /-- Code for the register machine. -/
  | machine
  /-- Functions in single assignment form. -/
  | ssa
  deriving DecidableEq, Repr

namespace Backend

def name : Backend → String
  | machine => "asm"
  | ssa => "ssa"

/-- The back end with a name; the machine is chosen if no name is given. -/
def ofName? : String → Option Backend
  | "" | "asm" => some machine
  | "ssa" => some ssa
  | _ => none

end Backend

/-- Why a function is refused. -/
inductive Reason
  | finalized
  | notBegun
  | undefinedValue (id : Ref)
  | typeMismatch (id : Ref) (ty expected : Ty)
  | valueType (ty : Ty)
  | badBinary (op : Op)
  | ofPointers (op : Op)
  | ofBools (op : Op)
  | badUnary (op : Op)
  | unaryOf (op : Op) (ty : Ty)
  | badCond (text : String)
  | orderedBools
  | toPointer (ty : Ty)
  | notPointer (id : Ref) (ty : Ty)
  | indexType (ty : Ty)
  | missingResult (ty : Ty)
  | voidResult
  | noArgument (n : Int)
  | noBlock (block : BlockId)
  | terminated
  | branchTo (block : BlockId)
  | notPhi (id : Ref)
  | notTerminated
  | phiCount (id : Ref) (values preds : Nat)
  | phiFrom (id : Ref) (values : Nat) (block : String)
  | phiValue (id value : Ref) (block : String)
  | phiType (id : Ref) (ty incoming : Ty) (block : String)
  | unavailable (form : String) (id : Ref)
  | assembling (cause : Machine.AssembleError)
  | compiling (cause : Ssa.CompileError)
  deriving Repr

def Reason.message : Reason → String
  | finalized => "function is finalized"
  | notBegun => "function is not begun"
  | undefinedValue id => "undefined value " ++ toString id
  | typeMismatch id ty expected =>
    "type mismatch: value " ++ toString id ++ " is " ++ ty.shown ++ ", expected " ++ expected.shown
  | valueType ty => "unsupported value type " ++ ty.shown
  | badBinary op => "bad binary operation " ++ op.text
  | ofPointers op => op.text ++ " of pointers"
  | ofBools op => op.text ++ " of bools"
  | badUnary op => "bad unary operation " ++ op.text
  | unaryOf op ty => op.text ++ " of " ++ ty.shown
  | badCond text => "bad condition " ++ Text.quote text
  | orderedBools => "ordered comparison of bools"
  | toPointer ty => "conversion of " ++ ty.shown ++ " to pointer"
  | notPointer id ty => "value " ++ toString id ++ " is " ++ ty.shown ++ ", expected pointer"
  | indexType ty => "index of type " ++ ty.shown
  | missingResult ty => "missing return value of type " ++ ty.shown
  | voidResult => "void function returns a value"
  | noArgument n => "no argument " ++ toString n
  | noBlock block => "no such block " ++ toString block
  | terminated => "block is already terminated"
  | branchTo block => "branch to undefined block " ++ toString block
  | notPhi id => "value " ++ toString id ++ " is not a phi"
  | notTerminated => "block is not terminated"
  | phiCount id n m =>
    "phi " ++ toString id ++ " has " ++ toString n ++ " incoming values for " ++ toString m ++
      " predecessors"
  | phiFrom id n block =>
    "phi " ++ toString id ++ " has " ++ toString n ++ " incoming values from block " ++ block
  | phiValue id value block =>
    "phi " ++ toString id ++ " incoming value " ++ toString value ++ " from block " ++ block ++
      " is not available"
  | phiType id ty incoming block =>
    "phi " ++ toString id ++ " of " ++ ty.shown ++ " merges " ++ incoming.shown ++ " from block " ++
      block
  | unavailable form id => form ++ " uses value " ++ toString id ++ " not available here"
  | assembling _ => "assemble"
  | compiling (.verify (.malformed i)) => i.defect.message
  | compiling cause => cause.message

/-- A reason with the place where it arose. -/
structure Failure where
  backend : Backend
  func : String
  block : String := ""
  position : Option Position := none
  reason : Reason
  deriving Repr

def Failure.message (f : Failure) : String :=
  let place := if f.block = "" then "" else ": block " ++ f.block
  f.backend.name ++ " backend: " ++ f.func ++ place ++ ": " ++ f.reason.message ++
    atPosition f.position

end Codesmith.Gen
