import Codesmith.Gen.Draft
import Codesmith.Gen.Program

/-!
# Building functions in single assignment form

Calls are checked like those of the other back end and then added to a function of expressions.
Before the function is begun there is nothing to add to.
-/

namespace Codesmith.Gen

/-- A function while it is built in single assignment form. -/
structure SsaDraft where
  draft : Draft := { backend := .ssa }
  func : Option Ssa.Func := none
  /-- The block that is being built. -/
  current : Label := 0
  deriving Repr

namespace SsaDraft

/-- The function; it is a fault to ask for it before it is begun. -/
def begunFunc (g : SsaDraft) : Except Fault Ssa.Func :=
  match g.func with
  | some f => .ok f
  | none => .error .invalidAddress

def blockCount (g : SsaDraft) : Nat :=
  (g.func.map fun f => f.blocks.size).getD 0

/-- The name of the block that is being built. -/
def place (g : SsaDraft) : String :=
  (g.func.map fun f => f.nameOf g.current).getD ""

/-- Remember a failure in the current block. -/
def fail (g : SsaDraft) (reason : Reason) : SsaDraft :=
  { g with draft := g.draft.fail g.place reason }

/-- Act on the function if a check passed, and remember the rule it found broken otherwise. -/
def guarded {α : Type} (g : SsaDraft) (check : Except Reason Unit) (otherwise : α)
    (act : Ssa.Func → α × SsaDraft) : α × SsaDraft :=
  match check, g.func with
  | .error reason, _ => (otherwise, g.fail reason)
  | .ok (), none => (otherwise, g.fail .notBegun)
  | .ok (), some f => act f

def add (g : SsaDraft) (f : Ssa.Func) (x : Ssa.Expr) (t : Ty) : Ref × SsaDraft :=
  let (id, f) := f.add g.current x t g.draft.position
  let g := { g with func := some f }
  if id = noRef then (noRef, g)
  else if t.isVoid then (id, g)
  else (id, { g with draft := g.draft.setType id.toNat t })

/-! ## Blocks -/

def newBlock (g : SsaDraft) (name : String) : Except Fault (BlockId × SsaDraft) := do
  let (l, f) := (← g.begunFunc).newBlock name
  return (l, { g with func := some f })

def setBlock (g : SsaDraft) (b : BlockId) : Except Fault SsaDraft := do
  let f ← g.begunFunc
  return if 0 ≤ b ∧ b < f.blocks.size then { g with current := b.toNat } else g.fail (.noBlock b)

/-- Whether the current block has ended. -/
def terminated (g : SsaDraft) : Except Fault Bool := do
  (← g.begunFunc).terminated g.current

/-- The current block can take more expressions. -/
def live (g : SsaDraft) : Except Reason Unit := do
  g.draft.ready
  match g.terminated with
  | .ok true => .error .terminated
  | _ => .ok ()

/-! ## Arguments -/

/-- Refuse the first argument that fits no word. -/
def checkArgs (d : Draft) : List Ty → Draft
  | [] => d
  | t :: ts =>
    match Draft.scalar t with
    | .error reason => d.fail "entry" reason
    | .ok () => checkArgs d ts

/-- Begin a function. -/
def start (g : SsaDraft) (name : String) (sig : Signature) : BlockId × SsaDraft :=
  let d := checkArgs { g.draft with name, sig, begun := true } sig.params
  let f := Ssa.Func.create name sig
  let d := (f.args.zip sig.params).foldl (fun d p => d.setType p.1 p.2) d
  ((Graph.entry : Int), { g with draft := d, func := some f, current := Graph.entry })

/-- The value of an argument. -/
def arg (g : SsaDraft) (i : Int) : Except Fault (Ref × SsaDraft) := do
  let f ← g.begunFunc
  match fetch? f.args.toArray i with
  | some r => return (r, g)
  | none => return (noRef, g.fail (.noArgument i))

/-! ## Values and exits -/

/-- A new value in the current block, or `noRef`. -/
def value (g : SsaDraft) (op : Operation) : Ref × SsaDraft :=
  g.guarded (do g.live; g.draft.checkOperation op) noRef fun f => g.add f op.expr op.ty

/-- Store a value where a pointer points. -/
def store (g : SsaDraft) (t : Ty) (p x : Ref) : SsaDraft :=
  (g.guarded (do g.live; g.draft.checkStore t p x) noRef fun f => g.add f (.store p x) .void).2

/-- End the current block. -/
def terminate (g : SsaDraft) (e : Exit) : SsaDraft :=
  (g.guarded (do g.live; g.draft.checkExit g.blockCount e) noRef fun f => g.add f e.expr .void).2

/-- A new value at the head of a block, which joins the values that come along its edges. -/
def phi (g : SsaDraft) (join : BlockId) (t : Ty) : Ref × SsaDraft :=
  g.guarded (do g.draft.ready; Draft.checkBlock g.blockCount join; Draft.scalar t) noRef fun f =>
    let (id, f) := f.add join (.phi []) t g.draft.position
    (id, { g with func := some f, draft := g.draft.setType id.toNat t })

/-- Let a value join `x` on the edge from a block. -/
def addIncoming (g : SsaDraft) (id : Ref) (source : BlockId) (x : Ref) : SsaDraft :=
  (g.guarded (do g.draft.ready; Draft.checkBlock g.blockCount source) () fun f =>
    ((), { g with func := some (f.addIncoming id source x) })).2

/-! ## The program -/

def symbol (f : Ssa.Func) (r : Ssa.BlockRange) : Except Fault Symbol := do
  let first := match f.blocks[r.label]? with
    | none => none
    | some b => b.code.head?.or b.term
  let id : Ref := (first.map Int.ofNat).getD noRef
  return {
    name := f.nameOf r.label, start := r.start, size := r.size
    position := ((f.entryOf? id).map Ssa.Entry.position).join
    text := ← f.exprText id }

/-- The failure that a function which does not compile causes. -/
def compileFailure (d : Draft) (e : Ssa.CompileError) : Failure :=
  match e with
  | .verify (.malformed i) =>
    { backend := d.backend, func := d.name, block := i.block, position := i.position,
      reason := .compiling e }
  | _ => d.refusal (.compiling e)

/-- Finish the function. This can be done only once. -/
def finalize (g : SsaDraft) : Except Fault (SsaDraft × Except Failure Program) :=
  if g.draft.finalized then .ok (g, .error (g.draft.refusal .finalized))
  else
    let g := { g with draft := { g.draft with finalized := true } }
    match g.draft.error, g.func with
    | some e, _ => .ok (g, .error e)
    | none, none => .ok (g, .error (g.draft.refusal .notBegun))
    | none, some f => do
      let (f, compiled) ← f.compile
      let g := { g with func := some f }
      match compiled with
      | .error e => return (g, .error (compileFailure g.draft e))
      | .ok p => return (g, .ok { image := .ssa p, symbols := ← p.layout.mapM (symbol p.func) })

end SsaDraft

end Codesmith.Gen
