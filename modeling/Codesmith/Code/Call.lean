import Codesmith.Code.Basic
import Codesmith.Host.Value
import Codesmith.Ty.Layout

/-!
# Calling finished functions

A host program calls finished code with values of its own. Integers of any host type are accepted and
wrapped to the width of the argument; pointers and slices pass their address. A function can also be
bound to a host function type that matches its signature exactly; then no conversion can fail.
-/

namespace Codesmith

open Host

/-- Why a value cannot be passed. -/
inductive ValueError
  | nothingFor (ty : Ty)
  | typeFor (type : String) (ty : Ty)
  deriving Repr

def ValueError.message : ValueError → String
  | nothingFor ty => "nil for " ++ ty.shown
  | typeFor type ty => type ++ " for " ++ ty.shown

/-- Why a function cannot be called. -/
inductive CallError
  | count (func : String) (expected given : Nat)
  | argument (func : String) (n : Nat) (cause : ValueError)
  deriving Repr

def CallError.message : CallError → String
  | count func expected given =>
    func ++ ": want " ++ toString expected ++ " arguments, got " ++ toString given ++
      ": arguments mismatch"
  | argument func n cause =>
    func ++ ": argument " ++ toString n ++ ": " ++ cause.message ++ ": arguments mismatch"

namespace Host

def HostValue.toWord (t : Ty) (v : HostValue) : Except ValueError Word :=
  let refused := .error (.typeFor v.typeName t)
  match v, t.kind with
  | .nothing, .ptr => .ok Word.zero
  | .nothing, _ => .error (.nothingFor t)
  | .bool b, .bool => .ok (Word.ofBool b)
  | .int _ _, .bool => refused
  | .int _ _, .ptr => refused
  | .int _ n, k => .ok (Word.ofBits (k.norm (UInt64.ofInt n)))
  | .pointer _ a, .ptr => .ok (Word.ofAddress a)
  | .slice _ a _, .ptr => .ok (Word.ofAddress a)
  | _, _ => refused

/-- The host value for a word of a type: an integer of the same width, or a plain pointer. -/
def HostValue.ofWord (t : Ty) (w : Word) : HostValue :=
  match t.kind with
  | .bool => .bool (w.bits != 0)
  | .int width signed =>
    let type := HostType.int (some width) signed
    .int type (HostValue.intOfBits type w.bits)
  | .ptr => .pointer .anyPointer w.addr
  | _ => .nothing

def HostType.ofWord (g : HostType) (w : Word) : HostValue :=
  match g with
  | .bool => .bool (w.bits != 0)
  | .int _ _ => .int g (HostValue.intOfBits g w.bits)
  | .address => .int g (HostValue.intOfBits g w.bits)
  | .anyPointer => .pointer g w.addr
  | .pointer _ => .pointer g w.addr
  | _ => HostValue.zero g

/-- Whether the values of a host type are exactly those of a type. What a pointer points to has to
have the same size. -/
def HostType.represents (g : HostType) (t : Ty) : Except Fault Bool :=
  match t, g with
  | .bool, .bool => .ok true
  | .int bits signed, _ =>
    .ok ((g.size : Int) * 8 == bits && ((g.isSigned && signed) || (g.isUnsigned && !signed)))
  | .ptr _, .anyPointer => .ok true
  | .ptr .void, .pointer _ => .ok true
  | .ptr .void, .slice _ => .ok true
  | .ptr elem, .pointer e => elem.size.map fun n => (e.size : Int) == n
  | .ptr elem, .slice e => elem.size.map fun n => (e.size : Int) == n
  | _, _ => .ok false

end Host

/-! ## Calls -/

namespace Code

/-- The words for arguments from argument `i` on. -/
def words (c : Code) : Nat → List Ty → List HostValue → Except CallError (List Word)
  | i, t :: ts, v :: vs =>
    match v.toWord t with
    | .error e => .error (.argument c.name i e)
    | .ok w => (words c (i + 1) ts vs).map (w :: ·)
  | _, _, _ => .ok []

/-- The host value that a function without a result, or with one, returns. -/
def result (c : Code) (w : Word) : HostValue :=
  if c.sig.result.isVoid then .nothing else HostValue.ofWord c.sig.result w

def call (c : Code) (fuel : Nat) (args : List HostValue) (m : Memory) :
    Except CallError (Outcome HostValue) :=
  if args.length ≠ c.sig.params.length then
    .error (.count c.name c.sig.params.length args.length)
  else
    (c.words 0 c.sig.params args).map fun ws => (c.run fuel ws.toArray m).map c.result

end Code

/-! ## Bound functions -/

/-- Why a function does not have a host function type. -/
inductive SignatureError
  | argumentCount (expected : Nat)
  | argument (n : Nat) (type : HostType) (ty : Ty)
  | resultCount (given : Nat)
  | result (type : HostType) (ty : Ty)
  deriving Repr

def SignatureError.message : SignatureError → String
  | argumentCount n => "want " ++ toString n ++ " arguments"
  | argument n type ty =>
    "argument " ++ toString n ++ ": " ++ type.name ++ " does not fit " ++ ty.shown
  | resultCount n => "want " ++ toString n ++ " results"
  | result type ty => "result: " ++ type.name ++ " does not fit " ++ ty.shown

/-- What a function is bound to. -/
inductive BindTarget
  /-- A place for a host function of a type. -/
  | place (type : FuncType)
  /-- A host function that has no place. -/
  | func (type : FuncType)
  | value (v : HostValue)
  deriving Repr

/-- Why a function cannot be bound. -/
inductive BindError
  | notPlace (func type : String)
  | signature (func : String) (type : FuncType) (cause : SignatureError)
  deriving Repr

def BindError.message : BindError → String
  | notPlace func type => func ++ ": want pointer to func, got " ++ type ++ ": signature mismatch"
  | signature func type cause =>
    func ++ ": bind " ++ type.name ++ ": " ++ cause.message ++ ": signature mismatch"

/-- A host function that calls finished code. -/
structure Bound where
  code : Code
  type : FuncType
  deriving Repr

namespace Code

/-- Check the parameters of a host function type from parameter `i` on. -/
def checkParams : Nat → List Ty → List HostType → Except Fault (Except SignatureError Unit)
  | i, t :: ts, g :: gs => do
    if ← g.represents t then checkParams (i + 1) ts gs
    else return .error (.argument i g t)
  | _, _, _ => .ok (.ok ())

def checkResults (t : Ty) : List HostType → Except Fault (Except SignatureError Unit)
  | [] => .ok (if t.isVoid then .ok () else .error (.resultCount 0))
  | [g] => do
    if t.isVoid then return .error (.resultCount 1)
    if g.isSlice then return .error (.result g t)
    if ← g.represents t then return .ok () else return .error (.result g t)
  | gs => .ok (.error (.resultCount gs.length))

def checkType (c : Code) (f : FuncType) : Except Fault (Except SignatureError Unit) := do
  if f.variadic || f.params.length != c.sig.params.length then
    return .error (.argumentCount c.sig.params.length)
  match ← checkParams 0 c.sig.params f.params with
  | .error e => return .error e
  | .ok () => checkResults c.sig.result f.results

/-- Bind a function to a host function type. -/
def bind (c : Code) : BindTarget → Except Fault (Except BindError Bound)
  | .value v => .ok (.error (.notPlace c.name v.typeName))
  | .func f => .ok (.error (.notPlace c.name f.name))
  | .place f => do
    match ← c.checkType f with
    | .error e => return .error (.signature c.name f e)
    | .ok () => return .ok ⟨c, f⟩

end Code

namespace Bound

/-- The word for an argument; an argument that is left out is the zero of its type. -/
def word (t : Ty) (g : HostType) (v : HostValue) : Word :=
  let v := if v = .nothing then HostValue.zero g else v
  (v.toWord t).toOption.getD Word.zero

/-- The words for the arguments of a bound function. -/
def words : List Ty → List HostType → List HostValue → List Word
  | t :: ts, g :: gs, v :: vs => word t g v :: words ts gs vs
  | _, _, _ => []

def call (b : Bound) (fuel : Nat) (args : List HostValue) (m : Memory) : Outcome HostValue :=
  (b.code.run fuel (words b.code.sig.params b.type.params args).toArray m).map fun w =>
    match b.type.results with
    | [] => .nothing
    | g :: _ => g.ofWord w

end Bound

end Codesmith
