import Codesmith.Gen.Failure

/-!
# Finished code

A program runs on one of the two machines. Its symbols say which range of the code belongs to which
block.
-/

namespace Codesmith.Gen

/-- A range of generated code with the block it was made for. -/
structure Symbol where
  name : String
  start : Nat
  size : Nat
  position : Option Position
  /-- The first line of the range. -/
  text : String
  deriving DecidableEq, Repr

/-- Code in the form of one of the back ends. -/
inductive Image
  | machine (object : Machine.Object)
  | ssa (program : Ssa.Program)
  deriving Repr

/-- A finished function. -/
structure Program where
  image : Image
  symbols : List Symbol
  deriving Repr

namespace Program

/-- The outcome of a run that takes at most so many steps. -/
def run (p : Program) (fuel : Nat) (args : Array Word) (m : Memory) : Outcome Word :=
  match p.image with
  | .machine o => o.run fuel args m
  | .ssa q => q.run fuel args m

def listing (p : Program) : Except Fault String :=
  match p.image with
  | .machine o => .ok o.listing
  | .ssa q => q.func.listing

end Program

end Codesmith.Gen
