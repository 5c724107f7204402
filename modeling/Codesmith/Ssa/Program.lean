import Codesmith.Ssa.Listing
import Codesmith.Ssa.Simplify

/-!
# Executable functions

A verified function is compiled block by block. Kinds are read off the types once, and each edge
carries the copies that its phis ask for. The copies of an edge happen at the same time: all values
are read before one of them is written.
-/

namespace Codesmith.Ssa

/-- A command of a compiled block. -/
inductive Command
  | compute (out : Nat) (value : Compute)
  | store (kind : Kind) (p x : Ref)
  deriving DecidableEq, Repr

/-- An edge with the copies that happen when control takes it. -/
structure Edge where
  target : Int
  copies : List (Nat × Ref)
  deriving DecidableEq, Repr

/-- How a compiled block ends. -/
inductive Exit
  | jump (edge : Edge)
  | branch (cond : Ref) (yes no : Edge)
  | ret (x : Option Ref)
  deriving DecidableEq, Repr

structure CompiledBlock where
  code : List Command
  exit : Exit
  deriving DecidableEq, Repr

/-- The range of places that a block takes up in a program. -/
structure BlockRange where
  label : Label
  start : Nat
  size : Nat
  deriving DecidableEq, Repr

/-- An executable function. -/
structure Program where
  func : Func
  /-- The compiled blocks in reverse postorder. -/
  layout : List BlockRange
  args : List Nat
  regs : Nat
  blocks : Array CompiledBlock
  deriving Repr

/-- Why a function cannot be compiled. -/
inductive CompileError
  | verify (cause : VerifyError)
  | notExpression (form : String)
  deriving Repr

def CompileError.message : CompileError → String
  | verify cause => cause.message
  | notExpression form => "unsupported expression: " ++ form

namespace Func

/-! ## Compiling -/

/-- The command of an expression. Arguments need none: their values are there from the start. -/
def command (f : Func) (id : Nat) (e : Entry) : Except CompileError (Option Command) :=
  let compute (c : Compute) := .ok (some (.compute id c))
  let kind := e.ty.kind
  match e.expr with
  | .arg _ => .ok none
  | .imm x => compute (.imm x)
  | .binary op l r => compute (.binary op kind l r)
  | .unary op x => compute (.unary op kind x)
  | .compare c l r => compute (.compare c (f.tyOf l).kind l r)
  | .convert x => compute (.convert kind (f.tyOf x).kind x)
  | .ptrAdd p i scale => compute (.ptrAdd scale p i)
  | .ptrDiff l r scale => compute (.ptrDiff scale l r)
  | .load p => compute (.load kind p)
  | .store p x => .ok (some (.store (f.tyOf x).kind p x))
  | x => .error (.notExpression x.form)

/-- The commands of the code of a block. -/
def commands (f : Func) : List Nat → Except CompileError (List Command)
  | [] => .ok []
  | id :: ids =>
    match f.entries[id]? with
    | none => commands f ids
    | some e =>
      match f.command id e with
      | .error err => .error err
      | .ok c => (commands f ids).map (c.toList ++ ·)

/-- The edge between two blocks. A phi that keeps its value needs no copy. -/
def edge (f : Func) (source : Label) (target : Int) : Edge :=
  let phis := ((fetch? f.blocks target).map Block.phis).getD []
  { target
    copies := phis.flatMap fun id => (f.branches id).filterMap fun b =>
      if b.block = (source : Int) ∧ b.value ≠ (id : Int) then some (id, b.value) else none }

/-- How a block ends, by its terminator. -/
def exit (f : Func) (l : Label) : Expr → Exit
  | .jump t => .jump (f.edge l t)
  | .branch c yes no =>
    if yes = no then .jump (f.edge l yes) else .branch c (f.edge l yes) (f.edge l no)
  | .ret x => .ret x
  | _ => .ret none

def compileBlock (f : Func) (l : Label) (b : Block) : Except CompileError CompiledBlock :=
  let exit := match b.term.bind fun t => f.entries[t]? with
    | some e => f.exit l e.expr
    | none => .ret none
  (f.commands b.code).map fun code => { code, exit }

/-- Compile blocks in order from a place on, into the blocks compiled so far. -/
def compileBlocks (f : Func) : List Label → Nat → Array CompiledBlock →
    Except CompileError (List BlockRange × Array CompiledBlock)
  | [], _, acc => .ok ([], acc)
  | l :: ls, start, acc =>
    match f.blocks[l]? with
    | none => compileBlocks f ls start acc
    | some b =>
      match f.compileBlock l b with
      | .error e => .error e
      | .ok c =>
        let size := b.code.length + 1
        match compileBlocks f ls (start + size) (acc.setIfInBounds l c) with
        | .error e => .error e
        | .ok (ranges, acc') => .ok (⟨l, start, size⟩ :: ranges, acc')

def emit (f : Func) (g : Graph) : Except CompileError Program :=
  let none := { code := [], exit := .ret none : CompiledBlock }
  (f.compileBlocks g.rpo 0 (Array.replicate f.blocks.size none)).map fun r =>
    { func := f, layout := r.1, args := f.args, regs := f.entries.size, blocks := r.2 }

/-- Prune, check and simplify a function and compile it. The function as it is afterwards comes with
the result, also if that is an error. -/
def compile (f : Func) : Except Fault (Func × Except CompileError Program) := do
  let f ← f.prune
  let (f, checked) ← f.verify
  match checked with
  | .error e => return (f, .error (.verify e))
  | .ok _ =>
    let f := f.removeTrivialPhis.2
    let (f, checked) ← f.verify
    match checked with
    | .error e => return (f, .error (.verify e))
    | .ok g => return (f, f.emit g)

end Func

/-! ## Execution -/

/-- Execute a command; a fault comes with the memory it left. -/
def Command.exec (r : Registers) (m : Memory) :
    Command → Except (Fault × Memory) (Registers × Memory)
  | compute out value =>
    match value.eval r m with
    | .error f => .error (f, m)
    | .ok w =>
      match Registers.write r out w with
      | .error f => .error (f, m)
      | .ok r' => .ok (r', m)
  | store k p x =>
    match storeFrom r m k p x with
    | .error e => .error e
    | .ok m' => .ok (r, m')

/-- Execute commands in order; a fault comes with the memory it left. -/
def execAll : List Command → Registers → Memory → Except (Fault × Memory) (Registers × Memory)
  | [], r, m => .ok (r, m)
  | c :: cs, r, m =>
    match c.exec r m with
    | .error e => .error e
    | .ok (r', m') => execAll cs r' m'

def writeAll : List (Nat × Word) → Registers → Except Fault Registers
  | [], r => .ok r
  | (d, w) :: ws, r =>
    match Registers.write r d w with
    | .error f => .error f
    | .ok r' => writeAll ws r'

/-- The registers after all copies of an edge have happened at the same time. -/
def Edge.take (e : Edge) (r : Registers) : Except Fault Registers := do
  let words ← e.copies.mapM fun c => fetch r c.2
  writeAll ((e.copies.map Prod.fst).zip words) r

namespace Program

/-- The state of a run between two blocks. -/
structure State where
  block : Int
  regs : Registers
  memory : Memory
  deriving Repr

/-- Go on along an edge. -/
def follow (e : Edge) (r : Registers) (m : Memory) : Step State :=
  match e.take r with
  | .error f => .fault f m
  | .ok r' => .next ⟨e.target, r', m⟩

def leave (r : Registers) (m : Memory) : Exit → Step State
  | .jump e => follow e r m
  | .branch c yes no =>
    match fetch r c with
    | .error f => .fault f m
    | .ok w => follow (if w.isTrue then yes else no) r m
  | .ret none => .done Word.zero m
  | .ret (some x) =>
    match fetch r x with
    | .error f => .fault f m
    | .ok w => .done w m

/-- One step: a block is executed and left. -/
def step (p : Program) (s : State) : Step State :=
  let ⟨b, r, m⟩ := s
  match fetch p.blocks b with
  | .error f => .fault f m
  | .ok blk =>
    match execAll blk.code r m with
    | .error (f, m') => .fault f m'
    | .ok (r', m') => leave r' m' blk.exit

/-- The registers with the arguments from argument `i` on in their places. -/
def placeArgs (args : Array Word) : Nat → List Nat → Registers → Except Fault Registers
  | _, [], r => .ok r
  | i, d :: ds, r =>
    match fetch args i with
    | .error f => .error f
    | .ok w =>
      match Registers.write r d w with
      | .error f => .error f
      | .ok r' => placeArgs args (i + 1) ds r'

/-- The outcome of at most so many blocks with the given arguments and memory. -/
def run (p : Program) (fuel : Nat) (args : Array Word) (m : Memory) : Outcome Word :=
  match placeArgs args 0 p.args (Array.replicate p.regs Word.zero) with
  | .error f => .fault f m
  | .ok r => iterate p.step fuel ⟨(Graph.entry : Int), r, m⟩

end Program

end Codesmith.Ssa
