import Codesmith.Execution

/-!
# Instructions of the register machine

Code is a list of instructions over registers that can be written again and again. Jumps name
labels, which are given places when the code is assembled. A stream may also hold things that are no
instructions; they are listed, and refused when the code is assembled.
-/

namespace Codesmith.Machine

/-- The greatest number of a register. -/
def lastReg : Reg := 9223372036854775807

/-- The number after a register, counted in 64 bits: the greatest is followed by the least. -/
def nextReg (r : Reg) : Reg :=
  if r = lastReg then -9223372036854775808 else r + 1

inductive Instr
  /-- Compute a word into a register. -/
  | compute (out : Reg) (value : Compute)
  /-- Copy argument `n` into a register. -/
  | arg (out : Reg) (n : Int)
  /-- Store the word in `x` where `p` points. -/
  | store (kind : Kind) (p x : Reg)
  | jump (label : Int)
  /-- Jump if the register is not zero, and go on otherwise. -/
  | branch (label : Int) (cond : Reg)
  /-- End with the word in a register, or with no result. -/
  | ret (x : Option Reg)
  /-- A thing that is no instruction, by its type and its text. -/
  | foreign (type text : String)
  deriving DecidableEq, Repr

namespace Instr

def writes : Instr → List Reg
  | compute out _ => [out]
  | arg out _ => [out]
  | _ => []

def reads : Instr → List Reg
  | compute _ value => value.reads
  | store _ p x => [p, x]
  | branch _ c => [c]
  | ret (some x) => [x]
  | _ => []

/-- Whether control never goes on to the next instruction. -/
def isTerminator : Instr → Bool
  | jump _ | ret _ => true
  | _ => false

/-- The label that an instruction may jump to. -/
def target? : Instr → Option Int
  | jump l => some l
  | branch l _ => some l
  | _ => none

/-- The name of the form of an instruction in messages. -/
def form : Instr → String
  | compute _ (.imm _) => "asm.Imm"
  | compute _ (.copy _) => "asm.Mov"
  | compute _ (.binary ..) => "asm.Op2"
  | compute _ (.unary ..) => "asm.Op1"
  | compute _ (.compare ..) => "asm.Set"
  | compute _ (.convert ..) => "asm.Conv"
  | compute _ (.ptrAdd ..) => "asm.Lea"
  | compute _ (.ptrDiff ..) => "asm.Diff"
  | compute _ (.load ..) => "asm.Load"
  | arg .. => "asm.Arg"
  | store .. => "asm.Store"
  | jump _ => "asm.B"
  | branch .. => "asm.BCond"
  | ret _ => "asm.Ret"
  | foreign type _ => type

/-- A register in a listing. -/
def regText (r : Reg) : String :=
  "R" ++ toString r

/-- The name of an operation in a listing, followed by blanks up to the operands. -/
def mnemonic (op : Op) : String :=
  Text.padRight 5 op.text.toUpper ++ " "

def computeText (out : Reg) : Compute → String
  | .imm x => "MOV   " ++ regText out ++ ", #" ++ Text.hexMarked x.toNat
  | .copy a => "MOV   " ++ regText out ++ ", " ++ regText a
  | .binary op k a b =>
    mnemonic op ++ regText out ++ ", " ++ regText a ++ ", " ++ regText b ++ "  // " ++ k.text
  | .unary op k a => mnemonic op ++ regText out ++ ", " ++ regText a ++ "  // " ++ k.text
  | .compare c k a b =>
    "SET   " ++ regText out ++ ", " ++ regText a ++ " " ++ c.text ++ " " ++ regText b ++ "  // " ++ k.text
  | .convert target source a =>
    "CONV  " ++ regText out ++ ", " ++ regText a ++ "  // " ++ target.text ++ " <- " ++ source.text
  | .ptrAdd scale a b =>
    "LEA   " ++ regText out ++ ", [" ++ regText a ++ " + " ++ regText b ++ "*" ++ toString scale ++ "]"
  | .ptrDiff scale a b =>
    "DIFF  " ++ regText out ++ ", " ++ regText a ++ ", " ++ regText b ++ ", " ++ toString scale
  | .load k a => "LDR   " ++ regText out ++ ", [" ++ regText a ++ "]  // " ++ k.text

/-- The line of an instruction in a listing. -/
def text : Instr → String
  | compute out value => computeText out value
  | arg out n => "ARG   " ++ regText out ++ ", " ++ toString n
  | store k p x => "STR   " ++ regText x ++ ", [" ++ regText p ++ "]  // " ++ k.text
  | jump l => "B     L" ++ toString l
  | branch l c => "CBNZ  " ++ regText c ++ ", L" ++ toString l
  | ret none => "RET"
  | ret (some x) => "RET   " ++ regText x
  | foreign type text => type ++ " " ++ text

end Instr

end Codesmith.Machine
