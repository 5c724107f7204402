import Codesmith.Ssa.Func

/-!
# Checking functions

`Func.prune` finds the reachable blocks and drops the branches of phis that come from other blocks.
`Func.verify` then checks the reachable part: every block ends, every phi has exactly one value for
each predecessor, and every use is dominated by its definition. What is wrong first is told, with
the block and the expression where it was found.
-/

namespace Codesmith.Ssa

/-- Why a reference names no usable value. -/
inductive UseError
  | undefined (id : Ref)
  | unreachable (id : Ref) (block : String)
  | untyped (id : Ref)
  deriving DecidableEq, Repr

def UseError.message : UseError → String
  | undefined id => "undefined value " ++ toString id
  | unreachable id block =>
    "value " ++ toString id ++ " is defined in unreachable block " ++ block
  | untyped id => "value " ++ toString id ++ " has no type"

/-- What is wrong with a function. -/
inductive Defect
  | noBlocks
  | notTerminated
  | branchTo (label : Int)
  | phiCount (values preds : Nat)
  | phiFrom (values : Nat) (block : String)
  | phiValue (cause : UseError)
  | phiType (ty incoming : Ty) (block : String)
  | phiOrder (id : Ref) (block definedIn : String)
  | operand (form : String) (cause : UseError)
  | useBefore (form : String) (id : Ref)
  | useOutside (form : String) (id : Ref) (definedIn : String)
  | missingResult (ty : Ty)
  | voidResult (ty : Ty)
  | resultType (ty expected : Ty)
  | branchOn (ty : Ty)
  deriving Repr

def Defect.message : Defect → String
  | noBlocks => "no blocks"
  | notTerminated => "block is not terminated"
  | branchTo l => "branch to undefined block " ++ toString l
  | phiCount n m =>
    "phi has " ++ toString n ++ " incoming values for " ++ toString m ++ " predecessors"
  | phiFrom n block => "phi has " ++ toString n ++ " incoming values from block " ++ block
  | phiValue cause => "phi incoming: " ++ cause.message
  | phiType ty incoming block =>
    "phi of " ++ ty.shown ++ " merges " ++ incoming.shown ++ " from block " ++ block
  | phiOrder id block definedIn =>
    "phi incoming " ++ toString id ++ " from block " ++ block ++
      " is not dominated by its definition in " ++ definedIn
  | operand form cause => form ++ ": " ++ cause.message
  | useBefore form id => form ++ " uses " ++ toString id ++ " before its definition"
  | useOutside form id definedIn =>
    form ++ " uses " ++ toString id ++ " not dominated by its definition in " ++ definedIn
  | missingResult ty => "missing return value of type " ++ ty.shown
  | voidResult ty => "void function returns " ++ ty.shown
  | resultType ty expected => "return of " ++ ty.shown ++ " from function returning " ++ expected.shown
  | branchOn ty => "branch on " ++ ty.shown

/-- A defect with the place where it was found. -/
structure Malformed where
  func : String
  block : String
  expr : Ref
  position : Option Position
  defect : Defect
  deriving Repr

/-- Why a function is refused. -/
inductive VerifyError
  /-- An addition had broken a rule. -/
  | built (func : String) (cause : BuildError)
  | malformed (info : Malformed)
  deriving Repr

/-- The wording of a refusal. -/
def VerifyError.message : VerifyError → String
  | built func cause => "ir: " ++ func ++ ": " ++ cause.message
  | malformed i =>
    let place := if i.block = "" then "" else "block " ++ i.block ++ ": "
    "ir: " ++ i.func ++ ": " ++ place ++ i.defect.message

namespace Func

/-! ## Pruning -/

def liveBranches (reach : Array Bool) (bs : List PhiBranch) : List PhiBranch :=
  bs.filter fun b => (fetch? reach b.block).getD false

/-- Drop the branches of a phi that come from unreachable blocks. -/
def prunePhi (f : Func) (id : Nat) : Func :=
  f.setExpr id (.phi (liveBranches f.reach (f.branches id)))

/-- The phis of the blocks that satisfy a condition, block after block. -/
def phisOf (f : Func) (p : Label → Bool) : List Nat :=
  f.blocks.toList.zipIdx.flatMap fun b => if p b.2 then b.1.phis else []

/-- Find the reachable blocks and drop what comes from others. A function without blocks has no
entry to start from. -/
def prune (f : Func) : Except Fault Func :=
  if f.blocks.isEmpty then .error (.indexOutOfRange 0 0)
  else
    let f := { f with reach := (Graph.explore f.blocks.size f.succsOf).seen }
    .ok ((f.phisOf fun l => f.reachable l).foldl prunePhi f)

/-! ## Verification -/

/-- A defect in a block at an expression. -/
def refuse (f : Func) (l : Int) (x : Ref) (d : Defect) : VerifyError :=
  .malformed
    { func := f.name, block := f.nameOf l, expr := x,
      position := ((f.entryOf? x).map Entry.position).join, defect := d }

/-- The expression that a reference names; it must be defined in a reachable block and have a type. -/
def usable (f : Func) (x : Ref) : Except UseError Entry :=
  match f.entryOf? x with
  | none => .error (.undefined x)
  | some e =>
    if !f.reachable e.block then .error (.unreachable x (f.nameOf e.block))
    else if e.ty.isVoid then .error (.untyped x)
    else .ok e

def firstError {α ε : Type} (check : α → Except ε Unit) : List α → Except ε Unit
  | [] => .ok ()
  | a :: as =>
    match check a with
    | .error e => .error e
    | .ok () => firstError check as

/-- Check one incoming value of a phi. -/
def verifyBranch (f : Func) (g : Graph) (l : Label) (id : Nat) (b : PhiBranch) :
    Except VerifyError Unit :=
  match f.usable b.value with
  | .error e => .error (f.refuse l id (.phiValue e))
  | .ok e =>
    if !e.ty.equal (f.tyOf id) then
      .error (f.refuse l id (.phiType (f.tyOf id) e.ty (f.nameOf b.block)))
    else if !g.dominates e.block b.block.toNat then
      .error (f.refuse l id (.phiOrder b.value (f.nameOf b.block) (f.nameOf e.block)))
    else .ok ()

/-- Check a phi: one usable value for each predecessor. -/
def verifyPhi (f : Func) (g : Graph) (l : Label) (id : Nat) : Except VerifyError Unit := do
  let bs := f.branches id
  let preds := g.preds.getD l []
  if bs.length ≠ preds.length then
    .error (f.refuse l id (.phiCount bs.length preds.length))
  else
    firstError (fun (p : Label) =>
      let n := bs.countP fun b => b.block == (p : Int)
      if n = 1 then .ok () else .error (f.refuse l id (.phiFrom n (f.nameOf p)))) preds
    firstError (f.verifyBranch g l id) bs

/-- The place of an expression in its block. Phis come first and terminators last. -/
def placeIn (b : Block) (x : Nat) : Int :=
  if b.phis.contains x then -1
  else match b.code.idxOf? x with
    | some i => i
    | none => b.code.length + 1

def verifyOperand (f : Func) (g : Graph) (l : Label) (b : Block) (place : Nat) (id : Nat) (x : Expr)
    (op : Ref) : Except VerifyError Unit :=
  match f.usable op with
  | .error e => .error (f.refuse l id (.operand x.form e))
  | .ok e =>
    if e.block = l then
      if (place : Int) ≤ placeIn b op.toNat then .error (f.refuse l id (.useBefore x.form op))
      else .ok ()
    else if g.dominates e.block l then .ok ()
    else .error (f.refuse l id (.useOutside x.form op (f.nameOf e.block)))

/-- Check that a terminator fits the result of the function and branches on a truth value. -/
def verifyEnd (f : Func) (l : Label) (id : Nat) : Expr → Except VerifyError Unit
  | .ret none =>
    if f.sig.result.isVoid then .ok ()
    else .error (f.refuse l id (.missingResult f.sig.result))
  | .ret (some x) =>
    if f.sig.result.isVoid then .error (f.refuse l id (.voidResult (f.tyOf x)))
    else if (f.tyOf x).equal f.sig.result then .ok ()
    else .error (f.refuse l id (.resultType (f.tyOf x) f.sig.result))
  | .branch c _ _ =>
    if (f.tyOf c).isBool then .ok () else .error (f.refuse l id (.branchOn (f.tyOf c)))
  | _ => .ok ()

def verifyExpr (f : Func) (g : Graph) (l : Label) (b : Block) (place : Nat) (id : Nat) :
    Except VerifyError Unit := do
  match f.entries[id]? with
  | none => .ok ()
  | some e =>
    firstError (f.verifyOperand g l b place id e.expr) e.expr.operands
    f.verifyEnd l id e.expr

/-- Check the phis and the expressions of a block. A block without a terminator is a fault here:
the blocks that were reachable when the function was pruned have one. -/
def verifyBlock (f : Func) (g : Graph) (l : Label) : Except Fault (Except VerifyError Unit) :=
  match f.blocks[l]? with
  | none => .ok (.ok ())
  | some b =>
    match firstError (f.verifyPhi g l) b.phis with
    | .error e => .ok (.error e)
    | .ok () =>
      match firstError (fun p => f.verifyExpr g l b p.2 p.1) b.code.zipIdx with
      | .error e => .ok (.error e)
      | .ok () =>
        match b.term with
        | none => .error (.indexOutOfRange (-1) f.entries.size)
        | some t => .ok (f.verifyExpr g l b b.code.length t)

/-- Check blocks in order. -/
def verifyBlocks (f : Func) (g : Graph) : List Label → Except Fault (Except VerifyError Unit)
  | [] => .ok (.ok ())
  | l :: ls =>
    match f.verifyBlock g l with
    | .error e => .error e
    | .ok (.error e) => .ok (.error e)
    | .ok (.ok ()) => verifyBlocks f g ls

/-- Check that a block found reachable ends and leads to blocks. -/
def verifyEdges (f : Func) (l : Label) (b : Block) : Except VerifyError Unit :=
  match b.term with
  | none => .error (f.refuse l noRef .notTerminated)
  | some t =>
    firstError (fun s =>
      if (fetch? f.blocks s).isSome then .ok () else .error (f.refuse l t (.branchTo s)))
      (f.targets b)

/-- Check a function whose reachable blocks are known. -/
def verifyPruned (f : Func) : Except Fault (Except VerifyError Graph) :=
  let checks := firstError (fun p => if f.reachable p.2 then f.verifyEdges p.2 p.1 else .ok ())
    f.blocks.toList.zipIdx
  match checks with
  | .error e => .ok (.error e)
  | .ok () => do
    let g ← Graph.build f.blocks.size f.succsOf
    match ← f.verifyBlocks g g.rpo with
    | .error e => return .error e
    | .ok () => return .ok g

/-- Check a function. It is pruned first unless that was done before. -/
def verify (f : Func) : Except Fault (Func × Except VerifyError Graph) :=
  match f.error with
  | some e => .ok (f, .error (.built f.name e))
  | none =>
    if f.blocks.isEmpty then .ok (f, .error (f.refuse noRef noRef .noBlocks))
    else do
      let f ← if f.reach.isEmpty then f.prune else .ok f
      return (f, ← f.verifyPruned)

end Func

end Codesmith.Ssa
