import Codesmith.Flow.Graph
import Codesmith.Position
import Codesmith.Ssa.Expr
import Codesmith.Ty.Text

/-!
# Functions in single assignment form

A function is a table of expressions together with its blocks. A block lists its phis, its code in
order, and its terminator. Expressions are added one by one; the first addition that breaks a rule
is remembered and refused for good when the function is checked.
-/

namespace Codesmith.Ssa

/-- An expression in the table of its function. -/
structure Entry where
  expr : Expr
  /-- The type of its value; absent for expressions without a value. -/
  ty : Ty
  position : Option Position
  /-- The block it belongs to. -/
  block : Label
  deriving Repr

structure Block where
  name : String
  phis : List Nat := []
  code : List Nat := []
  term : Option Nat := none
  deriving Repr

/-- Why an expression could not be added. -/
inductive BuildError
  | noSuchBlock (form : String) (block : Int)
  | terminated (form : String) (block : String)
  | notPhi (id : Ref)
  deriving DecidableEq, Repr

def BuildError.message : BuildError → String
  | noSuchBlock form b => "add " ++ form ++ ": no such block " ++ toString b
  | terminated form name => "add " ++ form ++ ": block " ++ Text.quote name ++ " already terminated"
  | notPhi id => "add incoming: " ++ toString id ++ " is not a phi"

structure Func where
  name : String
  sig : Signature
  /-- The expressions that stand for the arguments. -/
  args : List Nat := []
  entries : Array Entry := #[]
  blocks : Array Block := #[]
  /-- The blocks found reachable when the function was last pruned; empty before. -/
  reach : Array Bool := #[]
  /-- The first addition that broke a rule. -/
  error : Option BuildError := none
  deriving Repr

namespace Func

/-- The expression with a number. -/
def entryOf? (f : Func) (id : Ref) : Option Entry :=
  fetch? f.entries id

/-- The expression with a number, if it is a phi, as its branches. -/
def phi? (f : Func) (id : Ref) : Option (List PhiBranch) :=
  match f.entryOf? id with
  | some { expr := .phi bs, .. } => some bs
  | _ => none

/-- The branches of a phi; none for what is no phi. -/
def branches (f : Func) (id : Nat) : List PhiBranch :=
  (f.phi? id).getD []

/-- The type of an expression. -/
def tyOf (f : Func) (id : Ref) : Ty :=
  ((f.entryOf? id).map Entry.ty).getD .void

def nameOf (f : Func) (l : Int) : String :=
  ((fetch? f.blocks l).map Block.name).getD ""

/-- Remember an error unless there was one before. -/
def fail (f : Func) (e : BuildError) : Func :=
  { f with error := f.error.or (some e) }

def newBlock (f : Func) (name : String) : Label × Func :=
  (f.blocks.size, { f with blocks := f.blocks.push { name } })

def Block.push (b : Block) (id : Nat) (x : Expr) : Block :=
  if x.isPhi then { b with phis := b.phis ++ [id] }
  else if x.isTerminator then { b with term := some id }
  else { b with code := b.code ++ [id] }

/-- Add an expression to a block. A phi goes to the head of its block, even of one that is
terminated; nothing else may follow a terminator. The result is the number of the expression, or
`noRef`. -/
def add (f : Func) (b : Int) (x : Expr) (ty : Ty) (position : Option Position) : Ref × Func :=
  match fetch? f.blocks b with
  | none => (noRef, f.fail (.noSuchBlock x.form b))
  | some blk =>
    if blk.term.isSome && !x.isPhi then (noRef, f.fail (.terminated x.form blk.name))
    else
      let id := f.entries.size
      (id, { f with
        entries := f.entries.push { expr := x, ty, position, block := b.toNat }
        blocks := f.blocks.modify b.toNat fun blk => Block.push blk id x })

/-- Replace the expression with a number. -/
def setExpr (f : Func) (id : Nat) (x : Expr) : Func :=
  { f with entries := f.entries.modify id fun e => { e with expr := x } }

/-- Give a phi the value `x` for the edge from a block. -/
def addIncoming (f : Func) (id : Ref) (source : Int) (x : Ref) : Func :=
  match f.phi? id with
  | none => f.fail (.notPhi id)
  | some bs => f.setExpr id.toNat (.phi (bs ++ [⟨source, x⟩]))

/-- Add the expressions for the arguments from argument `i` on. -/
def addArgs (f : Func) (i : Nat) : List Ty → Func
  | [] => f
  | t :: ts =>
    let (id, f') := f.add Graph.entry (.arg i) t none
    addArgs { f' with args := f'.args ++ [id.toNat] } (i + 1) ts

/-- The function whose entry block holds the arguments. -/
def create (name : String) (sig : Signature) : Func :=
  (({ name, sig } : Func).newBlock "entry").2.addArgs 0 sig.params

/-- Whether a block has a terminator. -/
def terminated (f : Func) (b : Int) : Except Fault Bool :=
  (fetch f.blocks b).map fun blk => blk.term.isSome

/-- The successors of a block; a block without a terminator has none. -/
def targets (f : Func) (blk : Block) : List Int :=
  match blk.term with
  | none => []
  | some t => ((f.entryOf? t).map fun e => e.expr.targets).getD []

/-- The successors of a block given by its number. -/
def succs (f : Func) (b : Int) : Except Fault (List Int) :=
  (fetch f.blocks b).map f.targets

/-- The successors of a block; none for a number that is no block. -/
def succsOf (f : Func) (l : Label) : List Int :=
  (f.blocks[l]?.map f.targets).getD []

/-- Whether a block was reachable when the function was last pruned. -/
def reachable (f : Func) (b : Int) : Bool :=
  (fetch? f.reach b).getD false

end Func

end Codesmith.Ssa
