import Codesmith.Describe.Finish
import Codesmith.Script.Stmt

/-!
# Executing scripts

Executing a script carries out the description it stands for and keeps a trace. Every statement adds an
entry when it is done, with the value it made; an entry also tells the rejection that the function was
given since the entry before. After a construct the trace shows what all names refer to.
-/

namespace Codesmith.Script

open Describe

/-- What a trace tells. -/
inductive Event
  /-- A statement was executed. -/
  | done (stmt : String) (value : Option (String × Ref)) (error : Option Rejection)
  /-- The values of all names that are bound. -/
  | refs (values : List (Name × Ref))
  | finalized (error : Option FinishError)
  deriving Repr

/-- The state of a script. -/
structure Env where
  /-- How the functions are made. -/
  config : Config
  names : List (Name × Value) := []
  /-- The trace, latest event first. -/
  events : List Event := []
  /-- The rejection that the trace told last, by whether it was use of a finished function. -/
  told : Option Bool := none
  /-- The code that a statement of the script finished. -/
  code : Option Code := none
  deriving Repr

abbrev Run := Describe Env

/-- Change the state of the script. -/
def modifyEnv (f : Env → Env) : Run Unit :=
  modify fun w => { w with own := f w.own }

/-- The value with a name. The name `nil` stands for no value, also after it was bound. -/
def lookup (n : Name) : Run (Option Value) := do
  if n = "nil" then return none
  return (← get).own.names.lookup n

/-- The value with a name, to which an operation is applied; a missing value is a fault. -/
def receiver (n : Name) : Run Value := do
  match ← lookup n with
  | some v => return v
  | none => throw .invalidAddress

def bindName (n : Name) (v : Value) : Run Unit :=
  modifyEnv fun e => { e with names := (n, v) :: e.names.filter fun p => p.1 != n }

def term : Term → Run Operand
  | .name n => return .value (← lookup n)
  | .const x => return .const x

/-- The generator's value that a handle refers to. -/
def refOf (w : Workspace Env) (v : Value) : Ref :=
  let var := do
    let s ← w.sketches[v.owner.number]?
    s.vars[← v.var]?
  (var.map Var.ref).getD noRef

/-- Add an event to the trace. -/
def tell (e : Event) : Run Unit :=
  modifyEnv fun env => { env with events := e :: env.events }

/-- Tell that a statement was executed. -/
def record (stmt : String) (v : Option Value) : Run Unit := do
  let w ← get
  let error := w.sketches[0]?.bind Sketch.error
  let stage := error.map Rejection.isUseAfterFinalize
  let news := if stage = w.own.told then none else error
  modifyEnv fun e => { e with told := stage }
  tell (.done stmt (v.map fun v => (v.text, refOf w v)) news)

/-- Tell what all names refer to. -/
def recordRefs : Run Unit := do
  let w ← get
  tell (.refs (w.own.names.map fun p => (p.1, refOf w p.2)))

/-- Bind the result of a statement and tell it. -/
def yields (stmt : String) (n : Name) (v : Value) : Run Unit := do
  bindName n v
  record stmt (some v)

def bindAll (stem : Name) : Nat → List Value → Run Unit
  | _, [] => return ()
  | i, v :: vs => do
    bindName (stem ++ toString i) v
    bindAll stem (i + 1) vs

def BinaryOp.apply (op : BinaryOp) (v : Value) (x : Operand) (position : Position) : Edit Value :=
  match op with
  | .arith op => Describe.arith op v x position
  | .compare c => Describe.compare c v x position
  | .index => Describe.index v x position
  | .offset => Describe.offset v x position
  | .element => Describe.element v x position
  | .elem => Describe.elem v x position

def UnaryOp.apply (op : UnaryOp) (v : Value) (position : Position) : Edit Value :=
  match op with
  | .arith op => Describe.unary op v position
  | .copy => Describe.copy v position
  | .load => Describe.load v position

/-- Start to describe another function with one argument, and yield the argument. -/
def foreignArg (t : Ty) : Run Value := do
  let w ← get
  let config := { w.own.config with profileError := none }
  let n := w.sketches.size
  match ← Sketch.start config n "other" ⟨[t], .void⟩ ⟨"new", 1⟩ with
  | .error _ => throw .invalidAddress
  | .ok s =>
    set { w with sketches := w.sketches.push s }
    edit n (Describe.arg 0 ⟨"arg", 1⟩)

/-- Finish the function and tell the result. -/
def finalizeStmt (position : Position) : Run Unit := do
  let result ← here (finish position)
  record "finalize" none
  match result with
  | .error e => tell (.finalized (some e))
  | .ok c =>
    modifyEnv fun e => { e with code := some c }
    tell (.finalized none)

def eachPart (n : Name) (body : Option (Run Unit)) : Option (Value → Run Unit) :=
  body.map fun b v => do
    bindName n v
    record "each" (some v)
    b

/-- Tell that a construct was described. -/
def recordConstruct (stmt : String) : Run Unit := do
  record stmt none
  recordRefs

mutual

def Stmt.exec (s : Stmt) : Run Unit := do
  let name := s.name
  let pos : Position := ⟨name, 1⟩
  match s with
  | .arg bind n => yields name bind (← here (Describe.arg n pos))
  | .args stem => do
    let vs ← here (Describe.args pos)
    bindAll stem 0 vs
    record ("args " ++ toString vs.length) none
  | .const bind ty x => do
    let x ← term x
    yields name bind (← here (Describe.const ty x pos))
  | .var bind v => do
    let v ← lookup v
    yields name bind (← here (Describe.var v pos))
  | .binary op bind v x => do
    let v ← receiver v
    let x ← term x
    yields name bind (← on v (op.apply v x pos))
  | .unary op bind v => do
    let v ← receiver v
    yields name bind (← on v (op.apply v pos))
  | .convert bind v ty => do
    let v ← receiver v
    yields name bind (← on v (Describe.convert v ty pos))
  | .field bind v field => do
    let v ← receiver v
    yields name bind (← on v (Describe.field v field pos))
  | .diff bind v q => do
    let v ← receiver v
    let q ← lookup q
    yields name bind (← on v (Describe.diff v q pos))
  | .store v x => do
    let v ← receiver v
    let x ← term x
    on v (Describe.store v x pos)
    record name none
  | .assign v x => do
    let v ← receiver v
    let x ← term x
    on v (Describe.assign v x pos)
    record name (some v)
  | .ret x => do
    let x ← term x
    here (Describe.ret x pos)
    record name none
  | .leaveLoop => do
    here (Describe.leaveLoop pos)
    record name none
  | .nextRound => do
    here (Describe.nextRound pos)
    record name none
  | .ifThen c yes => do
    Describe.ifElse (← lookup c) yes.exec none pos
    recordConstruct name
  | .ifElse c yes no => do
    Describe.ifElse (← lookup c) yes.exec no.exec pos
    recordConstruct name
  | .whileLoop test body => do
    Describe.whileLoop test.exec body.exec pos
    recordConstruct name
  | .doWhile body test => do
    Describe.doWhile body.exec test.exec pos
    recordConstruct name
  | .forLoop init test step body => do
    Describe.forLoop init.exec test.exec step.exec body.exec pos
    recordConstruct name
  | .forN n bind body => do
    Describe.forN (← term n) (eachPart bind body.exec) pos
    recordConstruct name
  | .forRange first last bind body => do
    Describe.forRange (← lookup first) (← lookup last) (eachPart bind body.exec) pos
    recordConstruct name
  | .forRangePtr first last bind body => do
    Describe.forRangePtr (← lookup first) (← lookup last) (eachPart bind body.exec) pos
    recordConstruct name
  | .finalize => finalizeStmt pos
  | .foreign bind ty => do yields name bind (← foreignArg ty)
  | .fault f => throw f

/-- Execute statements in order. -/
def execAll : List Stmt → Run Unit
  | [] => return ()
  | s :: ss => do
    s.exec
    execAll ss

/-- The part that describes a body, if there is one. -/
def Body.exec : Body → Option (Run Unit)
  | .missing => none
  | .stmts ss => some (execAll ss)

/-- The part that describes a condition, if there is one. -/
def Test.exec : Test → Option (Run (Option Value))
  | .missing => none
  | .stmts ss v => some (do execAll ss; lookup v)

end

/-! ## Reports -/

/-- What came of a script. -/
structure Report where
  sig : Signature
  backend : Gen.Backend
  events : List Event
  /-- The fault that ended the script, or what follows it. -/
  fault : Option Fault
  /-- The result of finishing the function; absent if the script ended with a fault. -/
  final : Option (Except FinishError Code)
  /-- The code, if some was finished. -/
  code : Option Code
  deriving Repr

/-- Execute a script, finish the function, and execute what follows. -/
def run (config : Config) (name : String) (sig : Signature) (body after : List Stmt) :
    Except Fault (Except StartError Report) :=
  match Sketch.start config 0 name sig ⟨"new", 1⟩ with
  | .error f => .error f
  | .ok (.error e) => .ok (.error e)
  | .ok (.ok s) =>
    let report (w : Workspace Env) (fault : Option Fault) (final : Option (Except FinishError Code)) :
        Report :=
      { sig, backend := s.gen.backend, events := w.own.events.reverse, fault, final
        code := match final with
          | some (.ok c) => some c
          | _ => w.own.code }
    match execAll body ⟨#[s], { config }⟩ with
    | (.error f, w) => .ok (.ok (report w (some f) none))
    | (.ok (), w) =>
      match (here (finish ⟨"finalize", 1⟩) : Run _) w with
      | (.error f, w) => .ok (.ok (report w (some f) none))
      | (.ok final, w) =>
        match execAll after w with
        | (.error f, w) => .ok (.ok (report w (some f) (some final)))
        | (.ok (), w) => .ok (.ok (report w none (some final)))

/-- Build a function that a script describes. The code that the script itself finished counts if the
build yields none. -/
def build (config : Config) (name : String) (sig : Signature) (body : List Stmt) :
    Except Fault (Except BuildError Code) × Option Code :=
  let (result, env) := Describe.build config name sig (execAll body) { config } ⟨"build", 1⟩
  match result with
  | .ok (.ok c) => (result, some c)
  | _ => (result, env.code)

end Codesmith.Script
