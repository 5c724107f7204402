import Codesmith.Describe.Join
import Codesmith.Describe.Operations

/-!
# Control flow of descriptions

A description is a program in the monad `Describe`. Constructs take the parts they are made of as
programs, and run each part once to describe it. Part of the state belongs to whoever describes: a
description may carry a state `σ` of its own.

Several functions can be under description at the same time. Values act on the function they belong to;
constructs act on the first function.
-/

namespace Codesmith.Describe

/-- The functions under description, and the state of whoever describes them. -/
structure Workspace (σ : Type) where
  sketches : Array Sketch
  own : σ
  deriving Repr

end Codesmith.Describe

namespace Codesmith

/-- A description. A fault keeps the workspace as it was left. -/
abbrev Describe (σ : Type) := ExceptT Fault (StateM (Describe.Workspace σ))

namespace Describe

variable {σ : Type}

def edit {α : Type} (i : Nat) (e : Edit α) : Describe σ α := do
  let w ← get
  match w.sketches[i]? with
  | none => throw .invalidAddress
  | some s =>
    match e s with
    | .error f => throw f
    | .ok (a, s') =>
      set { w with sketches := w.sketches.setIfInBounds i s' }
      return a

def here {α : Type} (e : Edit α) : Describe σ α :=
  edit 0 e

def on {α : Type} (v : Value) (e : Edit α) : Describe σ α :=
  edit v.owner.number e

/-- Whether a call was rejected. -/
def rejected : Edit Bool := do
  return (← get).error.isSome

def inScope (part : Option (Describe σ Unit)) : Describe σ Unit :=
  match part with
  | none => return ()
  | some p => do
    here openScope
    p
    here closeScope

def condition (op : String) (c : Option Value) (position : Position) : Attempt Ref := do
  let ref ← use op c position
  let t := (c.map Value.ty).getD .void
  if !t.isBool then throw (.typeMismatch (op ++ " condition") t .bool none position)
  return ref

/-! ## Conditionals -/

/-- A conditional that is being described. -/
structure Conditional where
  /-- The number of variables made before it. -/
  size : Nat
  dead : Bool
  before : Array Ref
  yes : BlockId
  no : BlockId
  join : BlockId
  /-- The edges that lead to the join. -/
  flows : List EdgeFlow

/-- Branch on a condition. Without a second part, control goes on at the join. -/
def startIf (c : Option Value) (hasElse : Bool) (position : Position) :
    Edit (Option Conditional) :=
  attempt none do
    ready "if" position
    let ref ← condition "if" c position
    let s ← get
    let n := s.vars.size
    let before := s.snapshot n
    let yes ← newBlock "if.then"
    let join ← newBlock "if.end"
    let no ← if hasElse then newBlock "if.else" else pure join
    terminate (.branch ref yes no) position
    let flows := if hasElse || s.dead then [] else [⟨s.gen.current, before⟩]
    pushFrame
    return some ⟨n, s.dead, before, yes, no, join, flows⟩

def enterPart (k : Conditional) (b : BlockId) : Edit Unit := do
  setBlock b
  modify fun s => { s with dead := k.dead }

/-- Go from the end of a part to the join, if the end is reached. -/
def leavePart (k : Conditional) (position : Position) : Edit Conditional := do
  let s ← get
  if s.error.isSome || s.dead then return k
  terminate (.jump k.join) position
  return { k with flows := k.flows ++ [s.flow k.size] }

def part (k : Conditional) (b : BlockId) (p : Option (Describe σ Unit)) (position : Position) :
    Describe σ Conditional := do
  here (enterPart k b)
  inScope p
  here (leavePart k position)

/-- Go on after a conditional. -/
def endIf (k : Conditional) : Edit Unit := do
  let assigned ← popFrame
  restore k.before
  merge k.join k.flows k.size (some assigned)

/-- A conditional. -/
def ifElse (c : Option Value) (yes no : Option (Describe σ Unit)) (position : Position) :
    Describe σ Unit := do
  match ← here (startIf c no.isSome position) with
  | none => return ()
  | some k =>
    let k ← part k k.yes yes position
    if no.isSome then
      here (restore k.before)
      let k ← part k k.no no position
      here (endIf k)
    else here (endIf k)

/-! ## Loops -/

/-- Put a loop around what is described next. -/
def pushLoop (l : Loop) : Edit Unit :=
  modify fun s => { s with loops := l :: s.loops }

/-- The innermost loop, which ends here. -/
def popLoop (l : Loop) : Edit Loop :=
  modifyGet fun s => match s.loops with
    | [] => (l, s)
    | l' :: ls => (l', { s with loops := ls })

/-- The value of the condition of a loop, unless something was rejected. -/
def loopCondition (name : String) (c : Option Value) (position : Position) : Edit (Option Ref) :=
  attempt none do
    match (← get).error with
    | some e => throw e
    | none => return some (← condition name c position)

/-- A loop with its blocks and the values before it. -/
structure LoopPlan where
  loop : Loop
  before : Array Ref
  body : BlockId
  /-- The block of the step, if the loop has one. -/
  step : Option BlockId

/-- Make the blocks of a loop and go to its head. -/
def startLoop (name : String) (hasStep : Bool) (position : Position) : Edit LoopPlan := do
  let s ← get
  let n := s.vars.size
  let before := s.snapshot n
  let head ← newBlock (name ++ ".head")
  let body ← newBlock (name ++ ".body")
  let exit ← newBlock (name ++ ".end")
  let step ← if hasStep then some <$> newBlock (name ++ ".step") else pure none
  let loop ← enterLoop { size := n, next := step.getD head, exit, head } position
  pushFrame
  return { loop, before, body, step }

/-- The state of the head of a loop when control leaves it. -/
structure HeadState where
  dead : Bool
  refs : Array Ref
  /-- The edges from the head to the end of the loop. -/
  exits : List EdgeFlow

/-- Go from the head of a loop to its body, or to its end if the condition does not hold. -/
def leaveHead (p : LoopPlan) (c : Option Ref) (position : Position) : Edit HeadState := do
  let s ← get
  let n := p.loop.size
  let exits := if c.isNone || s.dead then [] else [s.flow n]
  terminate (match c with
    | none => .jump p.body
    | some ref => .branch ref p.body p.loop.exit) position
  setBlock p.body
  pushLoop p.loop
  return ⟨s.dead, s.snapshot n, exits⟩

def leaveBody (p : LoopPlan) (l : Loop) (position : Position) : Edit Loop := do
  let s ← get
  if s.dead then return l
  let f := s.flow l.size
  terminate (.jump l.next) position
  if p.step.isSome then return { l with continues := l.continues ++ [f] }
  backEdge l f
  return l

/-- Go back to the head from the end of the step of a loop. -/
def leaveStep (l : Loop) (position : Position) : Edit Unit := do
  let s ← get
  if s.dead then return ()
  terminate (.jump l.head) position
  backEdge l (s.flow l.size)

/-- Go on after a loop. -/
def endLoop (p : LoopPlan) (l : Loop) (h : HeadState) : Edit Unit := do
  let assigned ← popFrame
  restore h.refs
  modify fun s => { s with dead := h.dead }
  merge l.exit (h.exits ++ l.breaks) l.size none
  keepUnassigned p.before assigned

/-- Describe the step of a loop, and go on after the loop. -/
def loopStep (p : LoopPlan) (l : Loop) (h : HeadState) (step : Option (Describe σ Unit))
    (position : Position) : Describe σ Unit := do
  match p.step with
  | none => here (endLoop p l h)
  | some b =>
    here (do restore h.refs; merge b l.continues l.size none)
    inScope step
    if ← here rejected then return ()
    here (leaveStep l position)
    here (endLoop p l h)

def loopRest (p : LoopPlan) (c : Option Ref) (step body : Option (Describe σ Unit))
    (position : Position) : Describe σ Unit := do
  let h ← here (leaveHead p c position)
  inScope body
  let l ← here (popLoop p.loop)
  if ← here rejected then return ()
  let l ← here (leaveBody p l position)
  loopStep p l h step position

/-- A loop. What `init` makes lives until the loop ends and is given to the other parts. -/
def loop {ι : Type} (name : String) (init : Describe σ ι)
    (cond : Option (ι → Describe σ (Option Value))) (step body : Option (ι → Describe σ Unit))
    (position : Position) : Describe σ Unit := do
  here openScope
  let i ← init
  let run : Describe σ Unit := do
    if ← here rejected then return ()
    let p ← here (startLoop name step.isSome position)
    let rest (c : Option Ref) := loopRest p c (step.map (· i)) (body.map (· i)) position
    match cond with
    | none => rest none
    | some test =>
      let v ← test i
      match ← here (loopCondition name v position) with
      | none => return ()
      | some ref => rest (some ref)
  run
  here closeScope

/-- A loop that checks its condition before each round; without one it runs until it is left. -/
def whileLoop (cond : Option (Describe σ (Option Value))) (body : Option (Describe σ Unit))
    (position : Position) : Describe σ Unit := do
  if ← here (attempt false do ready "while" position; return true) then
    loop "while" (return ()) (cond.map fun c _ => c) none (body.map fun b _ => b) position

/-- A loop with an initial part and a step between rounds. -/
def forLoop (init : Option (Describe σ Unit)) (cond : Option (Describe σ (Option Value)))
    (step body : Option (Describe σ Unit)) (position : Position) : Describe σ Unit := do
  if ← here (attempt false do ready "for" position; return true) then
    loop "for" (init.getD (return ())) (cond.map fun c _ => c) (step.map fun b _ => b)
      (body.map fun b _ => b) position

/-- Make the blocks of a loop that starts with its body, and go to the body. -/
def startDo (position : Position) : Edit LoopPlan := do
  let s ← get
  let n := s.vars.size
  let before := s.snapshot n
  let head ← newBlock "do.body"
  let test ← newBlock "do.cond"
  let exit ← newBlock "do.end"
  let loop ← enterLoop { size := n, next := test, exit, head } position
  pushFrame
  pushLoop loop
  return { loop, before, body := head, step := none }

/-- Go from the end of the body of a loop to its condition. -/
def leaveDoBody (l : Loop) (position : Position) : Edit Loop := do
  let s ← get
  let l ← if s.dead then pure l else do
    terminate (.jump l.next) position
    pure { l with continues := l.continues ++ [s.flow l.size] }
  merge l.next l.continues l.size none
  return l

/-- Go from the condition of a loop back to its body, or on after the loop. -/
def endDo (p : LoopPlan) (l : Loop) (c : Option Ref) (position : Position) : Edit Unit := do
  let s ← get
  let f := s.flow l.size
  if !s.dead then
    terminate (match c with
      | some ref => .branch ref l.head l.exit
      | none => .jump l.head) position
    backEdge l f
  let exits := if c.isNone || s.dead then [] else [f]
  let assigned ← popFrame
  merge l.exit (exits ++ l.breaks) l.size none
  keepUnassigned p.before assigned

/-- A loop that checks its condition after each round. -/
def doWhile (body : Option (Describe σ Unit)) (cond : Option (Describe σ (Option Value)))
    (position : Position) : Describe σ Unit := do
  if ← here (attempt false do ready "do-while" position; return true) then
    here openScope
    let p ← here (startDo position)
    inScope body
    let l ← here (popLoop p.loop)
    let run : Describe σ Unit := do
      if ← here rejected then return ()
      let l ← here (leaveDoBody l position)
      match cond with
      | none => here (endDo p l none position)
      | some test =>
        let v ← test
        match ← here (loopCondition "do-while" v position) with
        | none => return ()
        | some ref => here (endDo p l (some ref) position)
    run
    here closeScope

/-! ## Loops over numbers and elements -/

def countOf (n : Operand) (position : Position) : Edit (Option Value) :=
  attempt none do
    ready "for-n" position
    let v ← match n with
      | .value v => pure v
      | .const _ => some <$> constant "for-n" .i64 n position
    let _ ← use "for-n" v position
    return v

/-- Advance a variable by an operation. -/
def advance (v : Value) (next : Edit Value) (position : Position) : Edit Unit := do
  let x ← next
  assign v (.value (some x)) position

/-- Describe a part that is given a value; a missing part is a fault. -/
def applyTo (each : Option (Value → Describe σ Unit)) (v : Value) : Describe σ Unit :=
  match each with
  | none => throw .invalidAddress
  | some p => p v

/-- A loop over the numbers from zero up to a count. -/
def forN (n : Operand) (each : Option (Value → Describe σ Unit)) (position : Position) :
    Describe σ Unit := do
  match ← here (countOf n position) with
  | none => return ()
  | some count =>
    loop "for-n"
      (here (do attempt (← invalid count.ty) (constant "for-n" count.ty (.ofInt 0) position)))
      (some fun i => some <$> here (compare .lt i (.value count) position))
      (some fun i => here (advance i (arith .add i (.ofInt 1) position) position))
      (some (applyTo each)) position

/-- The type of the elements between two pointers. -/
def rangeOf (first last : Option Value) (position : Position) : Edit (Option (Value × Value × Ty)) :=
  attempt none do
    ready "for-range" position
    let _ ← use "for-range" first position
    let _ ← use "for-range" last position
    match first, last with
    | some first, some last =>
      same "for-range" first.ty last.ty position
      let (t, _) ← pointee "for-range" first position
      return some (first, last, t)
    | _, _ => return none

/-- A loop over the pointers to the elements between two pointers. -/
def forRangePtr (first last : Option Value) (each : Option (Value → Describe σ Unit))
    (position : Position) : Describe σ Unit := do
  match ← here (rangeOf first last position) with
  | none => return ()
  | some (first, last, t) =>
    loop "for-range"
      (here (do
        let s ← get
        let ref := ((first.var.bind fun id => s.vars[id]?).map Var.ref).getD noRef
        newVar first.ty ref position))
      (some fun p => some <$> here (compare .ne p (.value last) position))
      (some fun p => here (do
        let size ← t.size
        let next := do
          let s ← get
          let ref := ((p.var.bind fun id => s.vars[id]?).map Var.ref).getD noRef
          attempt (← invalid p.ty) (ptrAdd "for-range" p ref p.ty (.ofInt 1) size position)
        advance p next position))
      (some (applyTo each)) position

/-- A loop over the elements between two pointers. -/
def forRange (first last : Option Value) (each : Option (Value → Describe σ Unit))
    (position : Position) : Describe σ Unit :=
  forRangePtr first last
    (some fun p => do applyTo each (← here (loadAs "for-range" p position))) position

/-! ## Leaving -/

/-- Go on in a block that cannot be reached. -/
def deadBlock (name : String) : Edit Unit := do
  setBlock (← newBlock (name ++ ".dead"))
  modify fun s => { s with dead := true }

def leaveLoop (position : Position) : Edit Unit :=
  attempt () do
    ready "break" position
    let s ← get
    match s.loops with
    | [] => throw (.breakOutside position)
    | l :: ls =>
      if !s.dead then
        set { s with loops := { l with breaks := l.breaks ++ [s.flow l.size] } :: ls }
        terminate (.jump l.exit) position
      deadBlock "break"

/-- Start the next round of the innermost loop. -/
def nextRound (position : Position) : Edit Unit :=
  attempt () do
    ready "continue" position
    let s ← get
    match s.loops with
    | [] => throw (.continueOutside position)
    | l :: ls =>
      if !s.dead then
        let f := s.flow l.size
        terminate (.jump l.next) position
        if l.next = l.head then backEdge l f
        else modify fun s => { s with loops := { l with continues := l.continues ++ [f] } :: ls }
      deadBlock "continue"

/-- The value that a function returns, checked against its signature. -/
def resultOf (x : Operand) (position : Position) : Attempt (Option Ref) := do
  let s ← get
  if x.isNothing then
    if s.sig.result.isVoid then return none
    throw (.unsupported "return" s.sig.result position)
  if s.sig.result.isVoid then throw (.voidResult s.id.name position)
  return some (← operandOf "return" s.sig.result x position)

/-- Return from the function. -/
def ret (x : Operand) (position : Position) : Edit Unit :=
  attempt () do
    ready "return" position
    let ref ← resultOf x position
    if !(← get).dead then terminate (.ret ref) position
    deadBlock "return"

end Describe

end Codesmith
