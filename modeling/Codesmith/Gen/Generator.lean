import Codesmith.Gen.Lowering
import Codesmith.Gen.SsaDraft

/-!
# Code generators

A generator is a function under construction in one of the back ends. Callers use it without knowing
which: they name values and blocks by the numbers that earlier calls returned.
-/

namespace Codesmith.Gen

/-- A function under construction. -/
inductive Generator
  | machine (g : MachineDraft)
  | ssa (g : SsaDraft)
  deriving Repr

namespace Generator

/-- The generator of a back end before anything is generated. -/
def ofBackend : Backend → Generator
  | .machine => .machine {}
  | .ssa => .ssa {}

/-- What is known of the function. -/
def draft : Generator → Draft
  | machine g => g.draft
  | ssa g => g.draft

def backend (g : Generator) : Backend := g.draft.backend

/-- The block that is being built. -/
def current : Generator → BlockId
  | machine g => g.current
  | ssa g => g.current

def setPosition (p : Option Position) : Generator → Generator
  | machine g => .machine { g with draft := { g.draft with position := p } }
  | ssa g => .ssa { g with draft := { g.draft with position := p } }

/-- Begin a function; the result is its entry block. -/
def start (name : String) (sig : Signature) : Generator → BlockId × Generator
  | machine g => (g.start name sig).map id machine
  | ssa g => (g.start name sig).map id ssa

/-- The value of an argument. -/
def arg (i : Int) : Generator → Except Fault (Ref × Generator)
  | machine g => .ok ((g.arg i).map id machine)
  | ssa g => (g.arg i).map (Prod.map id ssa)

def newBlock (name : String) : Generator → Except Fault (BlockId × Generator)
  | machine g => .ok ((g.newBlock name).map id machine)
  | ssa g => (g.newBlock name).map (Prod.map id ssa)

def setBlock (b : BlockId) : Generator → Except Fault Generator
  | machine g => .ok (.machine (g.setBlock b))
  | ssa g => (g.setBlock b).map ssa

/-- Whether the current block has ended. -/
def terminated : Generator → Except Fault Bool
  | machine g => g.terminated
  | ssa g => g.terminated

/-- A new value in the current block, or `noRef`. -/
def value (op : Operation) : Generator → Ref × Generator
  | machine g => (g.value op).map id machine
  | ssa g => (g.value op).map id ssa

/-- Store a value of a type where a pointer points. -/
def store (t : Ty) (p x : Ref) : Generator → Generator
  | machine g => .machine (g.store t p x)
  | ssa g => .ssa (g.store t p x)

/-- End the current block. -/
def terminate (e : Exit) : Generator → Generator
  | machine g => .machine (g.terminate e)
  | ssa g => .ssa (g.terminate e)

/-- A new value at the head of a block, which joins the values that come along its edges. -/
def phi (join : BlockId) (t : Ty) : Generator → Ref × Generator
  | machine g => (g.phi join t).map id machine
  | ssa g => (g.phi join t).map id ssa

/-- Let a value join `x` on the edge from a block. -/
def addIncoming (phi : Ref) (source : BlockId) (x : Ref) : Generator → Generator
  | machine g => .machine (g.addIncoming phi source x)
  | ssa g => .ssa (g.addIncoming phi source x)

/-- Finish the function. -/
def finalize : Generator → Except Fault (Generator × Except Failure Program)
  | machine g => g.finalize.map (Prod.map machine id)
  | ssa g => g.finalize.map (Prod.map ssa id)

end Generator

end Codesmith.Gen
