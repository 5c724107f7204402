import Codesmith.BitSet.Plain
import Codesmith.Describe.Rejection
import Codesmith.Gen.Generator

/-!
# Functions under description

A sketch is a function while it is described. It holds the code generator and, for every variable, the
generator's value that the variable has at the current point. Constructs open scopes; a variable made in
a scope cannot be used after it is closed.

Changes of a sketch are written in two layers. An `Edit` changes the sketch. An `Attempt` is an edit
that may be rejected; `attempt` makes an edit of it, which keeps the first rejection and goes on with
another result.
-/

namespace Codesmith.Describe

/-- A variable of a described function. -/
structure Var where
  ty : Ty
  /-- The value that the variable has at the current point. -/
  ref : Ref
  scope : Nat
  /-- Where the variable was made. -/
  position : Position
  deriving Repr

/-- A loop whose body is being described. -/
structure Loop where
  /-- The number of variables made before the loop. -/
  size : Nat
  /-- The block where the next round starts. -/
  next : BlockId
  exit : BlockId
  head : BlockId
  /-- The value that each variable has at the head, `noRef` if it is out of scope there; empty if the
  loop cannot be reached. -/
  phis : List Ref := []
  /-- The edges that lead to the next round, unless that starts at the head. -/
  continues : List EdgeFlow := []
  /-- The edges that leave the loop from inside its body. -/
  breaks : List EdgeFlow := []
  deriving Repr

/-- A function under description. -/
structure Sketch where
  id : FuncId
  sig : Signature
  gen : Gen.Generator
  /-- Why the profile of the finished code cannot be written, if so. -/
  profileError : Option String := none
  /-- The variables; the arguments come first. -/
  vars : Array Var := #[]
  /-- Whether the current point cannot be reached. -/
  dead : Bool := false
  /-- The loops around the current point, innermost first. -/
  loops : List Loop := []
  /-- The variables assigned in each construct around the current point, innermost first. -/
  frames : List BitSet.Plain := []
  /-- The open scopes, innermost first. -/
  scopes : List Nat := [0]
  nextScope : Nat := 1
  /-- The scopes that are closed. -/
  closed : BitSet.Plain := .empty
  finished : Bool := false
  /-- The first rejection. -/
  error : Option Rejection := none
  deriving Repr

abbrev Edit := StateT Sketch (Except Fault)

/-- A change of a sketch that may be rejected; what it did before stays done. -/
abbrev Attempt := ExceptT Rejection Edit

/-! ## Rejections -/

/-- Remember a rejection. The first one stays, except that use of a finished function is worse than
any mistake made before. -/
def Sketch.reject (s : Sketch) (e : Rejection) : Sketch :=
  match s.error with
  | none => { s with error := some e }
  | some e' =>
    if e.isUseAfterFinalize && !e'.isUseAfterFinalize then { s with error := some e } else s

/-- Carry out an attempt. If it is rejected, the rejection is remembered and the result is another. -/
def attempt {α : Type} (otherwise : α) (a : Attempt α) : Edit α := do
  match ← a.run with
  | .ok x => return x
  | .error e =>
    modify fun s => s.reject e
    return otherwise

/-- The function can be extended: it is not finished, and nothing was rejected before. -/
def ready (op : String) (position : Position) : Attempt Unit := do
  let s ← get
  if s.finished then throw (.useAfterFinalize op position)
  match s.error with
  | some e => throw e
  | none => return ()

/-! ## The generator -/

/-- Ask the generator for something. -/
def generate {α : Type} (f : Gen.Generator → α × Gen.Generator) : Edit α :=
  modifyGet fun s => let (a, g) := f s.gen; (a, { s with gen := g })

/-- Tell the generator something. -/
def instruct (f : Gen.Generator → Gen.Generator) : Edit Unit :=
  modify fun s => { s with gen := f s.gen }

def newBlock (name : String) : Edit BlockId := do
  let s ← get
  let (b, g) ← s.gen.newBlock name
  set { s with gen := g }
  return b

def setBlock (b : BlockId) : Edit Unit := do
  let s ← get
  let g ← s.gen.setBlock b
  set { s with gen := g }

def setPosition (p : Position) : Edit Unit :=
  instruct (Gen.Generator.setPosition (some p))

/-- End the current block. -/
def terminate (e : Gen.Exit) (position : Position) : Edit Unit := do
  setPosition position
  instruct (Gen.Generator.terminate e)

def operation (op : Gen.Operation) (position : Position) : Edit Ref := do
  setPosition position
  generate (Gen.Generator.value op)

/-! ## Variables -/

/-- A new variable in the innermost scope. -/
def newVar (t : Ty) (ref : Ref) (position : Position) : Edit Value :=
  modifyGet fun s =>
    (⟨s.id, t, some s.vars.size⟩,
      { s with vars := s.vars.push ⟨t, ref, s.scopes.headD 0, position⟩ })

/-- The handle without a variable that stands for the result of a rejected call. -/
def invalid (t : Ty) : Edit Value := do
  return ⟨(← get).id, t, none⟩

/-- Whether the scope of a variable is closed. -/
def Sketch.isClosed (s : Sketch) (v : Var) : Bool :=
  s.closed.contains v.scope

/-- Give a variable a value. -/
def Sketch.setRef (s : Sketch) (id : Nat) (ref : Ref) : Sketch :=
  { s with vars := s.vars.modify id fun v => { v with ref } }

/-- The values of the first `n` variables. -/
def Sketch.snapshot (s : Sketch) (n : Nat) : Array Ref :=
  (s.vars.extract 0 n).map Var.ref

/-- Give the variables from variable `i` on their values. -/
def Sketch.restoreFrom (s : Sketch) (i : Nat) : List Ref → Sketch
  | [] => s
  | r :: rs => (s.setRef i r).restoreFrom (i + 1) rs

/-- Give the first variables the values they had before. -/
def restore (refs : Array Ref) : Edit Unit :=
  modify fun s => s.restoreFrom 0 refs.toList

/-- The current value of a value that may be used here. -/
def use (op : String) (v : Option Value) (position : Position) : Attempt Ref := do
  let s ← get
  match v with
  | none => throw (.missingValue op)
  | some v =>
    if v.owner ≠ s.id then throw (.foreignValue op v.owner.name s.id.name)
    match v.var.bind fun id => s.vars[id]? with
    | none => throw (.invalidValue op)
    | some x =>
      if x.ref = noRef then throw (.invalidValue op)
      if s.isClosed x then throw (.outOfScope op x.position position)
      return x.ref

/-- Two types are the same. -/
def same (op : String) (l r : Ty) (position : Position) : Attempt Unit :=
  if l.equal r then return () else throw (.typeMismatch op l r none position)

/-- The type and the value of an operand; a constant takes the given type. -/
def operand (op : String) (t : Ty) (x : Operand) (position : Position) : Attempt (Ty × Ref) := do
  match x with
  | .value v =>
    let ref ← use op v position
    return ((v.map Value.ty).getD .void, ref)
  | .const c =>
    match constBits t c with
    | none => throw (.badConstant op t x position)
    | some bits => return (t, ← operation (.const t bits) position)

/-- The value of an operand of a type. -/
def operandOf (op : String) (t : Ty) (x : Operand) (position : Position) : Attempt Ref := do
  let (u, ref) ← operand op t x position
  same op t u position
  return ref

/-- A new variable that holds a constant. -/
def constant (op : String) (t : Ty) (x : Operand) (position : Position) : Attempt Value := do
  let bits := match x with
    | .const c => constBits t c
    | .value _ => none
  match bits with
  | none => throw (.badConstant op t x position)
  | some bits => newVar t (← operation (.const t bits) position) position

/-! ## Scopes and frames -/

def openScope : Edit Unit :=
  modify fun s => { s with scopes := s.nextScope :: s.scopes, nextScope := s.nextScope + 1 }

def closeScope : Edit Unit := do
  let s ← get
  match s.scopes with
  | [] => return ()
  | n :: ns => set { s with scopes := ns, closed := s.closed.add n }

/-- Start to collect the variables that are assigned. -/
def pushFrame : Edit Unit :=
  modify fun s => { s with frames := .empty :: s.frames }

/-- The variables assigned since the innermost frame was pushed. They count as assigned in the frame
around it, too. -/
def popFrame : Edit BitSet.Plain := do
  let s ← get
  match s.frames with
  | [] => return .empty
  | [f] =>
    set { s with frames := [] }
    return f
  | f :: g :: fs =>
    set { s with frames := g.union f :: fs }
    return f

end Codesmith.Describe
