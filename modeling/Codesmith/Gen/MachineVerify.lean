import Codesmith.Gen.MachineDraft

/-!
# Checking code for the register machine

Before code is laid out, the reachable blocks are checked in reverse postorder: each ends, each value
that joins others has exactly one of them for every predecessor, and every use is dominated by its
definition.
-/

namespace Codesmith.Gen.MachineDraft

def refuse (g : MachineDraft) (l : Int) (position : Option Position) (reason : Reason) : Failure :=
  { backend := g.draft.backend, func := g.draft.name, block := g.nameOf l, position, reason }

/-- Whether a value is defined before place `i` of a block on every path to it. -/
def available (g : MachineDraft) (gr : Graph) (l : Label) (i : Nat) (x : Ref) : Bool :=
  match fetch? g.defs x with
  | none => false
  | some d =>
    if !gr.reachable d.block then false
    else if d.block = l then
      match d.place with
      | none => true
      | some j => j < i
    else gr.dominates d.block l

/-- The values that a value joins, without those that come from unreachable blocks. -/
def liveIncoming (g : MachineDraft) (gr : Graph) (id : Nat) : List EdgeValue :=
  ((g.defs[id]?.map Def.incoming).getD []).filter fun e => gr.reachable e.source.toNat

/-- The number of instructions of a block. -/
def sizeOf (g : MachineDraft) (l : Int) : Nat :=
  ((fetch? g.blocks l).map fun b => b.code.length).getD 0

def verifyIncoming (g : MachineDraft) (gr : Graph) (l : Label) (id : Nat) (e : EdgeValue) :
    Except Failure Unit :=
  if !g.available gr e.source.toNat (g.sizeOf e.source) e.ref then
    .error (g.refuse l none (.phiValue id e.ref (g.nameOf e.source)))
  else if !(g.draft.typeOf e.ref).equal (g.draft.typeOf id) then
    .error (g.refuse l none
      (.phiType id (g.draft.typeOf id) (g.draft.typeOf e.ref) (g.nameOf e.source)))
  else .ok ()

/-- Check that a value joins exactly one value from each predecessor. -/
def verifyPhi (g : MachineDraft) (gr : Graph) (l : Label) (id : Nat) : Except Failure Unit := do
  let incoming := g.liveIncoming gr id
  let preds := gr.preds.getD l []
  if incoming.length ≠ preds.length then
    .error (g.refuse l none (.phiCount id incoming.length preds.length))
  else
    preds.forM fun (p : Label) =>
      let n := incoming.countP fun e => e.source == (p : Int)
      if n = 1 then .ok () else .error (g.refuse l none (.phiFrom id n (g.nameOf p)))
    incoming.forM (g.verifyIncoming gr l id)

/-- Check the values used at place `i` of a block. -/
def verifyUses (g : MachineDraft) (gr : Graph) (l : Label) (i : Nat) (position : Option Position)
    (form : String) (uses : List Ref) : Except Failure Unit :=
  uses.forM fun x =>
    if g.available gr l i x then .ok () else .error (g.refuse l position (.unavailable form x))

def verifyBlock (g : MachineDraft) (gr : Graph) (l : Label) : Except Failure Unit := do
  match g.blocks[l]? with
  | none => .ok ()
  | some b =>
    match b.exit with
    | none => .error (g.refuse l none .notTerminated)
    | some (e, position) =>
      b.phis.forM (g.verifyPhi gr l)
      b.code.zipIdx.forM fun (x, i) => g.verifyUses gr l i x.position x.instr.form x.instr.reads
      g.verifyUses gr l b.code.length position e.form e.reads

/-- Check the reachable blocks. -/
def verify (g : MachineDraft) (gr : Graph) : Except Failure Unit :=
  gr.rpo.forM (g.verifyBlock gr)

end Codesmith.Gen.MachineDraft
