import Codesmith.Gen.MachineVerify
import Codesmith.Gen.ParallelCopy
import Codesmith.Gen.Program

/-!
# Laying out code for the register machine

Code is laid out in sections, and section `i` begins at label `i`. The reachable blocks come first, in
reverse postorder. A block that ends with a jump makes the copies for that edge before it, and the jump
is left out if the target comes next. On a branch, the copies for the edge that is jumped along need a
section of their own, which follows the blocks.

A value has its register, and no draft has so many values that 64 bits could not count the registers, so
they are counted exactly.
-/

namespace Codesmith.Gen

/-- A section of laid out code. -/
structure Section where
  name : String
  position : Option Position
  code : List Line
  deriving Repr

/-- An edge of a branch whose copies need a section of their own. -/
structure SplitEdge where
  source : Label
  target : BlockId
  position : Option Position
  deriving DecidableEq, Repr

namespace MachineDraft

/-- The copies between registers on an edge. A value that joins itself needs none. -/
def moves (g : MachineDraft) (source : Label) (target : BlockId) : List (Reg × Reg) :=
  let phis := ((fetch? g.blocks target).map MachineBlock.phis).getD []
  phis.flatMap fun (id : Nat) =>
    ((g.defs[id]?.map Def.incoming).getD []).filterMap fun e =>
      if e.source = (source : Int) ∧ e.ref ≠ (id : Int) then some ((id : Int), e.ref) else none

/-- The instructions that make the copies on an edge. -/
def copies (g : MachineDraft) (source : Label) (target : BlockId) : List Machine.Instr :=
  parallelCopy (g.moves source target) g.defs.size (· + 1)

/-- The edge that has to be split at the end of a block. -/
def splitEdge? (g : MachineDraft) (l : Label) : Option SplitEdge :=
  match g.blocks[l]?.bind MachineBlock.exit with
  | some (.branch _ yes no, position) =>
    if yes ≠ no ∧ g.moves l yes ≠ [] then some ⟨l, yes, position⟩ else none
  | _ => none

/-- The edges to be split, in the order of their sections. -/
def splitEdges (g : MachineDraft) (gr : Graph) : List SplitEdge :=
  gr.rpo.filterMap g.splitEdge?

def labelOf (gr : Graph) (b : BlockId) : Nat :=
  (gr.order[b.toNat]?.join).getD 0

/-- The label to jump to from a block that branches to `yes`. -/
def branchLabel (g : MachineDraft) (gr : Graph) (l : Label) (yes : BlockId) : Nat :=
  match (g.splitEdges gr).findIdx? fun e => e.source == l with
  | some i => gr.rpo.length + i
  | none => labelOf gr yes

/-- Go on at a block after the copies for the edge to it; no jump is needed if it comes next. -/
def goOn (g : MachineDraft) (gr : Graph) (l : Label) (target : BlockId) (next : Option Label) :
    List Machine.Instr :=
  let jump := if next.map Int.ofNat = some target then [] else [.jump (labelOf gr target)]
  g.copies l target ++ jump

/-- The instructions that end a block. -/
def exitCode (g : MachineDraft) (gr : Graph) (l : Label) (next : Option Label) :
    Exit → List Machine.Instr
  | .ret x => [.ret x]
  | .jump target => g.goOn gr l target next
  | .branch c yes no =>
    if yes = no then g.goOn gr l yes next
    else .branch (g.branchLabel gr l yes) c :: g.goOn gr l no next

def blockSection (g : MachineDraft) (gr : Graph) (l : Label) (next : Option Label) : Section :=
  match g.blocks[l]? with
  | some { name, code, exit := some (e, position), .. } =>
    { name
      position := (code.head?.map Line.position).getD position
      code := code ++ (g.exitCode gr l next e).map fun x => ⟨x, position⟩ }
  | _ => ⟨"", none, []⟩

def blockSections (g : MachineDraft) (gr : Graph) : List Label → List Section
  | [] => []
  | l :: ls => g.blockSection gr l ls.head? :: blockSections g gr ls

def edgeSection (g : MachineDraft) (gr : Graph) (e : SplitEdge) : Section :=
  { name := g.nameOf e.source ++ ">" ++ g.nameOf e.target
    position := e.position
    code := (g.copies e.source e.target ++ [Machine.Instr.jump (labelOf gr e.target)]).map fun x =>
      ⟨x, e.position⟩ }

def sections (g : MachineDraft) (gr : Graph) : List Section :=
  g.blockSections gr gr.rpo ++ (g.splitEdges gr).map (g.edgeSection gr)

end MachineDraft

def Section.write (a : Machine.Assembler) (s : Section) (label : Nat) : Machine.Assembler :=
  s.code.foldl (fun a x => (a.setPosition x.position).emit x.instr) (a.bindLabel label)

/-- The symbols of sections that follow each other from a place on. -/
def symbols : Nat → List Section → List Symbol
  | _, [] => []
  | start, s :: ss =>
    { name := s.name, start, size := s.code.length, position := s.position
      text := (s.code.head?.map fun x => x.instr.text).getD "" } ::
        symbols (start + s.code.length) ss

namespace MachineDraft

/-- The assembler with all sections written. -/
def layOut (g : MachineDraft) (gr : Graph) : Machine.Assembler :=
  let ss := g.sections gr
  ss.zipIdx.foldl (fun a s => s.1.write a s.2)
    { name := g.draft.name, labels := Array.replicate ss.length none }

/-- The program of checked blocks. -/
def lower (g : MachineDraft) (gr : Graph) : Except Failure Program :=
  match (g.layOut gr).assemble (· + 1) with
  | .error e => .error (g.draft.refusal (.assembling e))
  | .ok o => .ok { image := .machine o, symbols := symbols 0 (g.sections gr) }

/-- Finish the function. This can be done only once. -/
def finalize (g : MachineDraft) : Except Fault (MachineDraft × Except Failure Program) :=
  if g.draft.finalized then .ok (g, .error (g.draft.refusal .finalized))
  else
    let g := { g with draft := { g.draft with finalized := true } }
    match g.draft.error with
    | some e => .ok (g, .error e)
    | none =>
      if !g.draft.begun then .ok (g, .error (g.draft.refusal .notBegun))
      else do
        let gr ← Graph.build g.blocks.size g.succs
        return (g, (g.verify gr).bind fun () => g.lower gr)

end MachineDraft

end Codesmith.Gen
