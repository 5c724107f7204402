import Codesmith.Machine.Object

/-!
# The assembler

An assembler collects instructions and places labels between them. Assembling encodes each
instruction as a record and resolves the jumps, or tells the first thing that is wrong.
-/

namespace Codesmith.Machine

/-- Why code cannot be assembled. -/
inductive AssembleError
  | unknownLabel (label : Int)
  | boundTwice (label : Int)
  | fallsThrough
  | badRegister (place : Nat) (form : String) (reg : Reg)
  | badCond (place : Nat) (text : String)
  | notInstruction (place : Nat) (form : String)
  | undefinedLabel (place : Nat) (label : Int)
  deriving DecidableEq, Repr

namespace AssembleError

def message : AssembleError → String
  | unknownLabel l => "bind of unknown label " ++ toString l
  | boundTwice l => "label " ++ toString l ++ " bound twice"
  | fallsThrough => "code falls through the end"
  | badRegister i form r =>
    "instr " ++ toString i ++ ": " ++ form ++ ": bad register " ++ toString r
  | badCond i text => "instr " ++ toString i ++ ": bad condition " ++ Text.quote text
  | notInstruction i form => "instr " ++ toString i ++ ": unsupported instruction: " ++ form
  | undefinedLabel i l => "instr " ++ toString i ++ ": jump to undefined label " ++ toString l

end AssembleError

/-- The code of a function while it is written. -/
structure Assembler where
  name : String
  text : Array Instr := #[]
  positions : Array (Option Position) := #[]
  labels : Array (Option Nat) := #[]
  /-- The position of the instructions to come. -/
  position : Option Position := none
  /-- The first thing that went wrong. -/
  error : Option AssembleError := none
  deriving Repr

namespace Assembler

/-- The number of instructions. -/
def size (a : Assembler) : Nat := a.text.size

def newLabel (a : Assembler) : Nat × Assembler :=
  (a.labels.size, { a with labels := a.labels.push none })

/-- Remember an error unless there was one before. -/
def fail (a : Assembler) (e : AssembleError) : Assembler :=
  { a with error := a.error.or (some e) }

/-- Place a label at the next instruction. -/
def bindLabel (a : Assembler) (l : Int) : Assembler :=
  match fetch? a.labels l with
  | none => a.fail (.unknownLabel l)
  | some (some _) => a.fail (.boundTwice l)
  | some none => { a with labels := a.labels.setIfInBounds l.toNat (some a.text.size) }

def setPosition (a : Assembler) (p : Option Position) : Assembler :=
  { a with position := p }

def emit (a : Assembler) (x : Instr) : Assembler :=
  { a with text := a.text.push x, positions := a.positions.push a.position }

/-! ## Assembling -/

def encodeCompute (place : Nat) (d : Reg) : Compute → Except AssembleError Record
  | .imm x => .ok { opcode := .imm, d, imm := x }
  | .copy a => .ok { opcode := .mov, d, a }
  | .binary op kind a b => .ok { opcode := .binary, op, kind, d, a, b }
  | .unary op kind a => .ok { opcode := .unary, op, kind, d, a }
  | .compare cond kind a b =>
    if cond.valid then .ok { opcode := .compare, cond, kind, d, a, b }
    else .error (.badCond place cond.text)
  | .convert target source a => .ok { opcode := .convert, kind := target, source, d, a }
  | .ptrAdd n a b => .ok { opcode := .ptrAdd, n, d, a, b }
  | .ptrDiff n a b => .ok { opcode := .ptrDiff, n, d, a, b }
  | .load kind a => .ok { opcode := .load, kind, d, a }

/-- The record of an instruction, with the place of a jump left open. -/
def encode (place : Nat) : Instr → Except AssembleError Record
  | .compute d value => encodeCompute place d value
  | .arg d n => .ok { opcode := .arg, d, n }
  | .store kind a b => .ok { opcode := .store, kind, a, b }
  | .jump _ => .ok { opcode := .jump }
  | .branch _ a => .ok { opcode := .branch, a }
  | .ret none => .ok { opcode := .ret }
  | .ret (some a) => .ok { opcode := .ret, a }
  | .foreign type _ => .error (.notInstruction place type)

/-- The number after the greatest register of a list, and at least `n`. -/
def registerBound (next : Reg → Reg) (n : Nat) (regs : List Reg) : Nat :=
  regs.foldl (fun n r => max n (next r).toNat) n

/-- The records of instructions from a place on, with the number of registers they need. -/
def encodeAll (next : Reg → Reg) : Nat → List Instr → Nat → Except AssembleError (List Record × Nat)
  | _, [], regs => .ok ([], regs)
  | place, x :: xs, regs =>
    match x.reads.find? fun r => decide (r < 0) with
    | some r => .error (.badRegister place x.form r)
    | none =>
      match encode place x with
      | .error e => .error e
      | .ok c =>
        match encodeAll next (place + 1) xs (registerBound next regs (x.writes ++ x.reads)) with
        | .error e => .error e
        | .ok (cs, n) => .ok (c :: cs, n)

/-- The records with the jumps resolved. -/
def resolve (labels : Array (Option Nat)) :
    Nat → List Instr → List Record → Except AssembleError (List Record)
  | place, x :: xs, c :: cs =>
    match x.target? with
    | none => (resolve labels (place + 1) xs cs).map (c :: ·)
    | some l =>
      match fetch? labels l with
      | some (some n) => (resolve labels (place + 1) xs cs).map ({ c with n := n } :: ·)
      | _ => .error (.undefinedLabel place l)
  | _, _, _ => .ok []

/-- The object of the code. Its registers are counted in 64 bits unless `next` counts them otherwise. -/
def assemble (a : Assembler) (next : Reg → Reg := nextReg) : Except AssembleError Object :=
  match a.error with
  | some e => .error e
  | none =>
    if (a.text.back?.map Instr.isTerminator).getD false then
      match encodeAll next 0 a.text.toList 0 with
      | .error e => .error e
      | .ok (records, regs) =>
        match resolve a.labels 0 a.text.toList records with
        | .error e => .error e
        | .ok code =>
          .ok { name := a.name, text := a.text, positions := a.positions, labels := a.labels,
                regs, code := code.toArray }
    else .error .fallsThrough

end Assembler

end Codesmith.Machine
