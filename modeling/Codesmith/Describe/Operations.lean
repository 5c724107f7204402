import Codesmith.Describe.Sketch
import Codesmith.Ty.Layout

/-!
# Operations on values

Every operation makes a new variable for its result. The variable that it is applied to has to be
usable, and constants have to be representable in its type. `assign` alone changes a variable.
-/

namespace Codesmith.Describe

/-- An argument of the function. -/
def arg (n : Int) (position : Position) : Edit Value := do
  let s ← get
  let rejected (e : Rejection) : Edit Value := do
    modify fun s => s.reject e
    invalid .void
  if s.finished then rejected (.useAfterFinalize "arg" position)
  else match fetch? s.sig.params.toArray n with
    | some t => return ⟨s.id, t, some n.toNat⟩
    | none => rejected (.noArgument n s.sig)

/-- All arguments of the function; none once it is finished. -/
def args (position : Position) : Edit (List Value) := do
  let s ← get
  if s.finished then
    modify fun s => s.reject (.useAfterFinalize "args" position)
    return []
  return s.sig.params.zipIdx.map fun p => ⟨s.id, p.1, some p.2⟩

/-- A new variable that holds a constant. -/
def const (t : Ty) (x : Operand) (position : Position) : Edit Value := do
  attempt (← invalid t) do
    ready "const" position
    if !t.isScalar then throw (.unsupported "const" t position)
    constant "const" t x position

/-- A new variable with the value of another. -/
def var (x : Option Value) (position : Position) : Edit Value := do
  let t := (x.map Value.ty).getD .void
  attempt (← invalid t) do
    ready "var" position
    newVar t (← use "var" x position) position

/-- A new variable with the same value. -/
def copy (v : Value) (position : Position) : Edit Value := do
  attempt (← invalid v.ty) do
    ready "copy" position
    newVar v.ty (← use "copy" v position) position

def assign (v : Value) (x : Operand) (position : Position) : Edit Unit :=
  attempt () do
    ready "assign" position
    let _ ← use "assign" v position
    let ref ← operandOf "assign" v.ty x position
    let s ← get
    let id := v.var.getD 0
    let frames := match s.frames with
      | [] => []
      | f :: fs => f.add id :: fs
    set { s.setRef id ref with frames }

/-- A binary operation on integers, or a logical one on truth values. -/
def arith (op : Op) (v : Value) (x : Operand) (position : Position) : Edit Value := do
  attempt (← invalid v.ty) do
    ready op.text position
    let l ← use op.text v position
    let r ← operandOf op.text v.ty x position
    if !(v.ty.isInt || (v.ty.isBool && op.isLogical)) then
      throw (.unsupported op.text v.ty position)
    newVar v.ty (← operation (.binary op v.ty l r) position) position

/-- A unary operation on an integer, or the negation of a truth value. -/
def unary (op : Op) (v : Value) (position : Position) : Edit Value := do
  attempt (← invalid v.ty) do
    ready op.text position
    let x ← use op.text v position
    if !(v.ty.isInt || (v.ty.isBool && op == .not)) then
      throw (.unsupported op.text v.ty position)
    newVar v.ty (← operation (.unary op v.ty x) position) position

/-- A comparison. Truth values can only be compared for equality. -/
def compare (c : Cond) (v : Value) (x : Operand) (position : Position) : Edit Value := do
  attempt (← invalid .bool) do
    ready c.text position
    let l ← use c.text v position
    let r ← operandOf c.text v.ty x position
    if v.ty.isBool && !c.isEquality then throw (.unsupported c.text v.ty position)
    newVar .bool (← operation (.compare c v.ty l r) position) position

/-- The value in another type. Only pointers become pointers. -/
def convert (v : Value) (t : Ty) (position : Position) : Edit Value := do
  attempt (← invalid t) do
    ready "convert" position
    let x ← use "convert" v position
    if !t.isScalar || (t.isPtr && !v.ty.isPtr) then
      throw (.typeMismatch "convert" v.ty t none position)
    if v.ty.equal t then newVar t x position
    else newVar t (← operation (.convert t v.ty x) position) position

/-! ## Pointers -/

/-- What a pointer points to, and its value. -/
def pointee (op : String) (v : Value) (position : Position) : Attempt (Ty × Ref) := do
  ready op position
  let p ← use op v position
  match v.ty with
  | .ptr .void => throw (.unsupported op v.ty position)
  | .ptr elem => return (elem, p)
  | _ => throw (.unsupported op v.ty position)

/-- The value of an operand that counts elements: any integer, or a constant of 64 bits. -/
def indexOf (op : String) (v : Value) (i : Operand) (position : Position) : Attempt Ref := do
  match i with
  | .const _ => operandOf op .i64 i position
  | .value j =>
    let ref ← use op j position
    let t := (j.map Value.ty).getD .void
    if !t.isInt then throw (.typeMismatch op v.ty t none position)
    return ref

/-- The pointer of a type so many elements of `scale` bytes after a pointer. -/
def ptrAdd (op : String) (v : Value) (p : Ref) (t : Ty) (i : Operand) (scale : Int)
    (position : Position) : Attempt Value := do
  let i ← indexOf op v i position
  newVar t (← operation (.ptrAdd t p i scale) position) position

/-- The pointer to the element `i` places after the one pointed to. -/
def index (v : Value) (i : Operand) (position : Position) : Edit Value := do
  attempt (← invalid v.ty) do
    let (elem, p) ← pointee "index" v position
    ptrAdd "index" v p v.ty i (← elem.size) position

/-- The pointer advanced by bytes. -/
def offset (v : Value) (n : Operand) (position : Position) : Edit Value := do
  attempt (← invalid v.ty) do
    let (_, p) ← pointee "offset" v position
    ptrAdd "offset" v p v.ty n 1 position

/-- The fields of a struct type. -/
def fieldsOf : Ty → List (Field Ty)
  | .struct fields => fields
  | _ => []

/-- The pointer to a field of the struct pointed to. -/
def field (v : Value) (name : String) (position : Position) : Edit Value := do
  let op := "field " ++ name
  let (f, p) ← attempt (none, noRef) do
    let (elem, p) ← pointee "field" v position
    match (fieldsOf elem).find? fun f => f.name == name with
    | none => throw (.unsupported op v.ty position)
    | some f => return (some f, p)
  match f with
  | none => invalid .void
  | some f =>
    let offset := .const (.int (.int (some .w64) true) f.offset)
    attempt (← invalid (.ptr f.ty)) (ptrAdd op v p (.ptr f.ty) offset 1 position)

/-- The pointer to an element of the array pointed to. -/
def element (v : Value) (i : Operand) (position : Position) : Edit Value := do
  let (t, p) ← attempt (Ty.void, noRef) do
    let (elem, p) ← pointee "at" v position
    match elem with
    | .array _ _ => return (elem, p)
    | _ => throw (.unsupported "at" v.ty position)
  match t with
  | .array elem _ =>
    let size ← elem.size
    attempt (← invalid (.ptr elem)) (ptrAdd "at" v p (.ptr elem) i size position)
  | _ => invalid .void

/-- What a pointer points to, as a new variable. -/
def loadAs (op : String) (v : Value) (position : Position) : Edit Value := do
  let (t, p) ← attempt (Ty.void, noRef) (pointee op v position)
  if t.isVoid then invalid .void
  else attempt (← invalid t) do
    if !t.isScalar then throw (.unsupported op v.ty position)
    newVar t (← operation (.load t p) position) position

/-- What a pointer points to, as a new variable. -/
def load (v : Value) (position : Position) : Edit Value :=
  loadAs "load" v position

/-- The element `i` places after the one pointed to, as a new variable. -/
def elem (v : Value) (i : Operand) (position : Position) : Edit Value := do
  let (t, p) ← attempt (Ty.void, noRef) (pointee "elem" v position)
  if t.isVoid then invalid .void
  else
    let size ← t.size
    let q ← attempt (← invalid v.ty) (ptrAdd "elem" v p v.ty i size position)
    loadAs "elem" q position

def store (v : Value) (x : Operand) (position : Position) : Edit Unit :=
  attempt () do
    let (t, p) ← pointee "store" v position
    if !t.isScalar then throw (.unsupported "store" v.ty position)
    let ref ← operandOf "store" t x position
    setPosition position
    instruct (Gen.Generator.store t p ref)

/-- The distance from one pointer to another in elements. -/
def diff (v : Value) (q : Option Value) (position : Position) : Edit Value := do
  attempt (← invalid .i64) do
    let (t, p) ← pointee "diff" v position
    let ref ← use "diff" q position
    same "diff" v.ty ((q.map Value.ty).getD .void) position
    let size ← t.size
    newVar .i64 (← operation (.ptrDiff p ref size) position) position

end Codesmith.Describe
