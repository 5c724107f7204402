import Codesmith.Gen.Draft

/-!
# Building code for the register machine

Every value has a register of its own. Blocks collect their instructions in order, and a value that
joins others at the head of a block lists them by the edge they come from.
-/

namespace Codesmith.Gen

/-- An instruction with its position. -/
structure Line where
  instr : Machine.Instr
  position : Option Position
  deriving Repr

structure MachineBlock where
  name : String
  /-- The values that join others at the head of the block. -/
  phis : List Nat := []
  code : List Line := []
  exit : Option (Exit × Option Position) := none
  deriving Repr

/-- Where a value is defined. -/
structure Def where
  block : Label
  /-- The place of its instruction in the block; none for a value that joins others. -/
  place : Option Nat
  /-- The values that are joined. -/
  incoming : List EdgeValue := []
  deriving Repr

/-- A function while code for the register machine is built. -/
structure MachineDraft where
  draft : Draft := { backend := .machine }
  blocks : Array MachineBlock := #[]
  /-- The block that is being built. -/
  current : Label := 0
  /-- The definition of each value. -/
  defs : Array Def := #[]
  args : Array Ref := #[]
  deriving Repr

namespace MachineDraft

/-- The name of the block that is being built. -/
def place (g : MachineDraft) : String :=
  (g.blocks[g.current]?.map MachineBlock.name).getD ""

/-- Remember a failure in the current block. -/
def fail (g : MachineDraft) (reason : Reason) : MachineDraft :=
  { g with draft := g.draft.fail g.place reason }

/-- Act if a check passed, and remember the rule it found broken otherwise. -/
def guarded {α : Type} (g : MachineDraft) (check : Except Reason Unit) (otherwise : α)
    (act : MachineDraft → α × MachineDraft) : α × MachineDraft :=
  match check with
  | .error reason => (otherwise, g.fail reason)
  | .ok () => act g

/-- Append an instruction to the current block. -/
def emit (g : MachineDraft) (x : Machine.Instr) : MachineDraft :=
  { g with blocks := g.blocks.modify g.current fun b =>
      { b with code := b.code ++ [⟨x, g.draft.position⟩] } }

/-- The number of instructions in the current block. -/
def codeSize (g : MachineDraft) : Nat :=
  (g.blocks[g.current]?.map fun b => b.code.length).getD 0

/-- Define a new value of a type. -/
def define (g : MachineDraft) (t : Ty) (d : Def) : Nat × MachineDraft :=
  (g.defs.size, { g with defs := g.defs.push d, draft := g.draft.setType g.defs.size t })

/-- A new value that an instruction of the current block computes. -/
def computed (g : MachineDraft) (t : Ty) (instr : Reg → Machine.Instr) : Ref × MachineDraft :=
  let (id, g) := g.define t ⟨g.current, some g.codeSize, []⟩
  (id, g.emit (instr id))

/-! ## Blocks -/

def newBlock (g : MachineDraft) (name : String) : BlockId × MachineDraft :=
  (g.blocks.size, { g with blocks := g.blocks.push { name } })

def setBlock (g : MachineDraft) (b : BlockId) : MachineDraft :=
  if 0 ≤ b ∧ b < g.blocks.size then { g with current := b.toNat } else g.fail (.noBlock b)

/-- Whether the current block has ended. Before the first block there is none to ask about. -/
def terminated (g : MachineDraft) : Except Fault Bool :=
  (fetch g.blocks g.current).map fun b => b.exit.isSome

/-- The current block can take more instructions. -/
def live (g : MachineDraft) : Except Reason Unit := do
  g.draft.ready
  match g.terminated with
  | .ok true => .error .terminated
  | _ => .ok ()

/-! ## Arguments -/

/-- Define the arguments from argument `i` on, up to one that fits no word. -/
def defineArgs (g : MachineDraft) (i : Nat) : List Ty → MachineDraft
  | [] => g
  | t :: ts =>
    match Draft.scalar t with
    | .error reason => { g with draft := g.draft.fail "entry" reason }
    | .ok () =>
      let (r, g) := g.computed t fun r => .arg r i
      defineArgs { g with args := g.args.push r } (i + 1) ts

/-- Begin a function in a new entry block. -/
def start (g : MachineDraft) (name : String) (sig : Signature) : BlockId × MachineDraft :=
  let g := { g with draft := { g.draft with name, sig, begun := true } }
  let (entry, g) := g.newBlock "entry"
  (entry, (g.setBlock entry).defineArgs 0 sig.params)

/-- The value of an argument. -/
def arg (g : MachineDraft) (i : Int) : Ref × MachineDraft :=
  match fetch? g.args i with
  | some r => (r, g)
  | none => (noRef, g.fail (.noArgument i))

/-! ## Values and exits -/

/-- A new value in the current block, or `noRef`. -/
def value (g : MachineDraft) (op : Operation) : Ref × MachineDraft :=
  g.guarded (do g.live; g.draft.checkOperation op) noRef fun g =>
    g.computed op.ty fun r => .compute r op.compute

/-- Store a value where a pointer points. -/
def store (g : MachineDraft) (t : Ty) (p x : Ref) : MachineDraft :=
  (g.guarded (do g.live; g.draft.checkStore t p x) () fun g => ((), g.emit (.store t.kind p x))).2

/-- End the current block. -/
def terminate (g : MachineDraft) (e : Exit) : MachineDraft :=
  (g.guarded (do g.live; g.draft.checkExit g.blocks.size e) () fun g =>
    ((), { g with blocks := g.blocks.modify g.current fun b =>
      { b with exit := some (e, g.draft.position) } })).2

/-- A new value at the head of a block, which joins the values that come along its edges. -/
def phi (g : MachineDraft) (join : BlockId) (t : Ty) : Ref × MachineDraft :=
  g.guarded (do g.draft.ready; Draft.checkBlock g.blocks.size join; Draft.scalar t) noRef fun g =>
    let (id, g) := g.define t ⟨join.toNat, none, []⟩
    (id, { g with blocks := g.blocks.modify join.toNat fun b => { b with phis := b.phis ++ [id] } })

/-- The value joins others. -/
def checkPhi (g : MachineDraft) (id : Ref) : Except Reason Unit :=
  match fetch? g.defs id with
  | some { place := none, .. } => .ok ()
  | _ => .error (.notPhi id)

/-- Let a value join `x` on the edge from a block. -/
def addIncoming (g : MachineDraft) (id : Ref) (source : BlockId) (x : Ref) : MachineDraft :=
  (g.guarded (do g.draft.ready; Draft.checkBlock g.blocks.size source; g.checkPhi id) () fun g =>
    ((), { g with defs := g.defs.modify id.toNat fun d =>
      { d with incoming := d.incoming ++ [⟨source, x⟩] } })).2

/-! ## The graph -/

/-- The blocks that follow a block. -/
def succs (g : MachineDraft) (l : Label) : List Int :=
  match g.blocks[l]? with
  | some { exit := some (e, _), .. } => e.targets
  | _ => []

def nameOf (g : MachineDraft) (l : Int) : String :=
  ((fetch? g.blocks l).map MachineBlock.name).getD ""

end MachineDraft

end Codesmith.Gen
