import Codesmith.Machine.Instr

/-!
# Copies that happen at the same time

An edge between blocks may copy several registers at once, and one copy may overwrite what another
has still to read. Such copies go through registers that nothing else uses; others are made directly.
-/

namespace Codesmith.Gen

/-- The instruction that copies register `source` to register `target`. -/
def copyInstr (target source : Reg) : Machine.Instr :=
  .compute target (.copy source)

/-- Whether a copy writes a register that is read by one of the copies. -/
def clobbers (moves : List (Reg × Reg)) : Bool :=
  moves.any fun m => moves.any fun n => m.1 == n.2

/-- Copies of all sources to registers from `temp` on. -/
def stage (next : Reg → Reg) (temp : Reg) : List Reg → List Machine.Instr
  | [] => []
  | source :: sources => copyInstr temp source :: stage next (next temp) sources

/-- Copies of registers from `temp` on to all targets. -/
def unstage (next : Reg → Reg) (temp : Reg) : List Reg → List Machine.Instr
  | [] => []
  | target :: targets => copyInstr target temp :: unstage next (next temp) targets

/-- Instructions that have the effect of all copies, given as target and source, at the same time.
The registers from `temp` on are free; they are numbered in 64 bits unless `next` says otherwise. -/
def parallelCopy (moves : List (Reg × Reg)) (temp : Reg) (next : Reg → Reg := Machine.nextReg) :
    List Machine.Instr :=
  if clobbers moves then stage next temp (moves.map Prod.snd) ++ unstage next temp (moves.map Prod.fst)
  else moves.map fun m => copyInstr m.1 m.2

end Codesmith.Gen
