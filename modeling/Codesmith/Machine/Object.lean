import Codesmith.Machine.Instr
import Codesmith.Position

/-!
# Assembled code

Assembled code is a list of flat records, one for each instruction. All forms of instructions share
the fields of a record, and a jump holds the place to go on at. `Object.run` executes the records; it
never looks at the instructions they were made from, which are kept for listings.
-/

namespace Codesmith.Machine

/-- What a record does. -/
inductive Opcode
  | imm
  | arg
  | mov
  | binary
  | unary
  | compare
  | convert
  | ptrAdd
  | ptrDiff
  | load
  | store
  | jump
  | branch
  | ret
  deriving DecidableEq, Repr

/-- An assembled instruction. Fields that the opcode does not use keep their defaults. -/
structure Record where
  opcode : Opcode
  kind : Kind := .invalid
  source : Kind := .invalid
  op : Op := .invalid
  cond : Cond := .unknown ""
  /-- The register written. -/
  d : Reg := -1
  /-- The registers read. -/
  a : Reg := -1
  b : Reg := -1
  imm : UInt64 := 0
  /-- The argument, the scale, or the place to jump to. -/
  n : Int := 0
  deriving DecidableEq, Repr

/-- Code that is ready to run. -/
structure Object where
  name : String
  text : Array Instr
  positions : Array (Option Position)
  /-- The place of each label that has one. -/
  labels : Array (Option Nat)
  /-- The number of registers. -/
  regs : Nat
  code : Array Record
  deriving Repr

namespace Object

/-- The labels placed at an instruction, ascending. -/
def labelsAt (o : Object) (pc : Nat) : List Nat :=
  (List.range o.labels.size).filter fun l => o.labels[l]? == some (some pc)

/-- The lines of an instruction: its labels, then the instruction after its place. -/
def lines (o : Object) (pc : Nat) (x : Instr) : String :=
  String.join ((o.labelsAt pc).map fun l => "L" ++ toString l ++ ":\n") ++
    "\t" ++ Text.padRight 4 (toString pc) ++ " " ++ x.text ++ "\n"

def listing (o : Object) : String :=
  o.name ++ ":\n" ++ String.join (o.text.toList.zipIdx.map fun p => o.lines p.2 p.1)

/-! ## Execution -/

structure State where
  pc : Int
  regs : Registers
  memory : Memory
  deriving Repr

def start (o : Object) (m : Memory) : State :=
  ⟨0, Array.replicate o.regs Word.zero, m⟩

/-- The word that a record computes for its register, if it is of that form. -/
def value (c : Record) (args : Array Word) (r : Registers) (m : Memory) : Except Fault Word :=
  match c.opcode with
  | .arg => fetch args c.n
  | .mov => fetch r c.a
  | .binary => do Word.binary c.op c.kind (← fetch r c.a) (← fetch r c.b)
  | .unary => do Word.unary c.op c.kind (← fetch r c.a)
  | .compare => do return Word.ofBool (← Word.compare c.cond c.kind (← fetch r c.a) (← fetch r c.b))
  | .convert => do Word.convert c.kind c.source (← fetch r c.a)
  | .ptrAdd => do return Word.ptrAdd (← fetch r c.a) (← fetch r c.b) c.n
  | .ptrDiff => do return Word.ptrDiff (← fetch r c.a) (← fetch r c.b) c.n
  | .load => do m.load c.kind (← fetch r c.a)
  | _ => .ok (Word.ofBits c.imm)

/-- One step: the record at the program counter is executed. -/
def step (o : Object) (args : Array Word) (s : State) : Step State :=
  let ⟨pc, r, m⟩ := s
  match fetch o.code pc with
  | .error f => .fault f m
  | .ok c =>
    match c.opcode with
    | .jump => .next ⟨c.n, r, m⟩
    | .branch =>
      match fetch r c.a with
      | .error f => .fault f m
      | .ok w => .next ⟨if w.isTrue then c.n else pc + 1, r, m⟩
    | .ret =>
      if c.a = -1 then .done Word.zero m
      else match fetch r c.a with
        | .error f => .fault f m
        | .ok w => .done w m
    | .store =>
      match storeFrom r m c.kind c.a c.b with
      | .error (f, m') => .fault f m'
      | .ok m' => .next ⟨pc + 1, r, m'⟩
    | _ =>
      match value c args r m with
      | .error f => .fault f m
      | .ok w =>
        match Registers.write r c.d w with
        | .error f => .fault f m
        | .ok r' => .next ⟨pc + 1, r', m⟩

/-- The outcome of at most so many steps with the given arguments and memory. -/
def run (o : Object) (fuel : Nat) (args : Array Word) (m : Memory) : Outcome Word :=
  iterate (o.step args) fuel (o.start m)

end Object

end Codesmith.Machine
