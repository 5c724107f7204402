import Codesmith.Gen.Failure
import Codesmith.Gen.Operation

/-!
# What generators know of a function

Both back ends keep the types of the values made so far and check every call against them before
they act on it. A check tells the rule that is broken; `Draft.fail` remembers the first one.
-/

namespace Codesmith.Gen

/-- A function while its code is generated. -/
structure Draft where
  backend : Backend
  name : String := ""
  sig : Signature := ⟨[], .void⟩
  /-- The type of each value; absent for a number that is no value. -/
  types : Array Ty := #[]
  /-- The position of what is generated next. -/
  position : Option Position := none
  begun : Bool := false
  finalized : Bool := false
  /-- The first failure. -/
  error : Option Failure := none
  deriving Repr

namespace Draft

/-- Remember a failure in a block unless there was one before. -/
def fail (d : Draft) (block : String) (reason : Reason) : Draft :=
  let failure := { backend := d.backend, func := d.name, block, position := d.position, reason }
  { d with error := d.error.or (some failure) }

/-- A failure that concerns the function as a whole. -/
def refusal (d : Draft) (reason : Reason) : Failure :=
  { backend := d.backend, func := d.name, reason }

/-- Give a value its type. -/
def setType (d : Draft) (id : Nat) (t : Ty) : Draft :=
  let types := if d.types.size ≤ id then d.types ++ Array.replicate (id + 1 - d.types.size) .void
    else d.types
  { d with types := types.setIfInBounds id t }

/-- The type of a value; absent if there is no such value. -/
def typeOf (d : Draft) (id : Ref) : Ty :=
  (fetch? d.types id).getD .void

/-! ## Checks -/

/-- The function is begun, not finished, and nothing failed before. -/
def ready (d : Draft) : Except Reason Unit :=
  match d.error with
  | some e => .error e.reason
  | none =>
    if d.finalized then .error .finalized
    else if d.begun then .ok ()
    else .error .notBegun

def defined (d : Draft) (id : Ref) : Except Reason Unit :=
  if (d.typeOf id).isVoid then .error (.undefinedValue id) else .ok ()

/-- The value is defined and has the type, unless that is absent. -/
def operand (d : Draft) (id : Ref) (t : Ty) : Except Reason Unit := do
  d.defined id
  if t.isVoid || (d.typeOf id).equal t then .ok ()
  else .error (.typeMismatch id (d.typeOf id) t)

/-- Values of the type fit a word. -/
def scalar (t : Ty) : Except Reason Unit :=
  if t.kind = .invalid then .error (.valueType t) else .ok ()

def pointer (d : Draft) (p : Ref) : Except Reason Unit := do
  d.defined p
  if (d.typeOf p).isPtr then .ok () else .error (.notPointer p (d.typeOf p))

/-- The value can count elements. -/
def index (d : Draft) (i : Ref) : Except Reason Unit := do
  d.defined i
  match (d.typeOf i).kind with
  | .invalid | .bool | .ptr => .error (.indexType (d.typeOf i))
  | _ => .ok ()

/-- The operation takes two values of the kind. -/
def binaryKind (op : Op) (k : Kind) : Except Reason Unit :=
  if !op.isBinary then .error (.badBinary op)
  else if k = .ptr then .error (.ofPointers op)
  else if k = .bool && !op.isLogical then .error (.ofBools op)
  else .ok ()

/-- The operation takes one value of the type. -/
def unaryType (op : Op) (t : Ty) : Except Reason Unit :=
  if !op.isUnary then .error (.badUnary op)
  else if t.kind = .ptr || (t.kind = .bool && op == .neg) then .error (.unaryOf op t)
  else .ok ()

def compareKind (c : Cond) (k : Kind) : Except Reason Unit :=
  if !c.valid then .error (.badCond c.text)
  else if k = .bool && !c.isEquality then .error .orderedBools
  else .ok ()

def checkOperation (d : Draft) : Operation → Except Reason Unit
  | .const t _ => scalar t
  | .binary op t l r => do
    scalar t
    binaryKind op t.kind
    d.operand l t
    d.operand r t
  | .unary op t x => do
    scalar t
    unaryType op t
    d.operand x t
  | .compare c t l r => do
    scalar t
    compareKind c t.kind
    d.operand l t
    d.operand r t
  | .convert target source x => do
    scalar target
    scalar source
    if target.kind = .ptr ∧ source.kind ≠ .ptr then .error (.toPointer source) else .ok ()
    d.operand x source
  | .ptrAdd _ p i _ => do
    d.pointer p
    d.index i
  | .ptrDiff p q _ => do
    d.pointer p
    d.pointer q
  | .load t p => do
    d.pointer p
    scalar t

/-- A value of the type can be stored at the pointer. -/
def checkStore (d : Draft) (t : Ty) (p x : Ref) : Except Reason Unit := do
  d.pointer p
  d.operand x t
  scalar t

/-- The block is one of the first `n`. -/
def checkBlock (n : Nat) (b : BlockId) : Except Reason Unit :=
  if 0 ≤ b ∧ b < n then .ok () else .error (.branchTo b)

/-- The result is what the function has to return. -/
def checkResult (d : Draft) : Option Ref → Except Reason Unit
  | none => if d.sig.result.isVoid then .ok () else .error (.missingResult d.sig.result)
  | some x => if d.sig.result.isVoid then .error .voidResult else d.operand x d.sig.result

/-- The exit is one of a function with `n` blocks. -/
def checkExit (d : Draft) (n : Nat) : Exit → Except Reason Unit
  | .jump t => checkBlock n t
  | .branch c yes no => do
    d.operand c .bool
    checkBlock n yes
    checkBlock n no
  | .ret x => d.checkResult x

end Draft

end Codesmith.Gen
