import Codesmith.Ssa.Expr
import Codesmith.Ty.Basic

/-!
# What code generators are asked for

Operations compute a value from earlier values, and exits end a block. Both back ends are given the
same operations and exits. `Operation.compute` is what the machine executes for an operation, and
`Operation.expr` is its expression in single assignment form.
-/

namespace Codesmith.Gen

/-- An operation on values of a generator. -/
inductive Operation
  | const (ty : Ty) (bits : UInt64)
  | binary (op : Op) (ty : Ty) (l r : Ref)
  | unary (op : Op) (ty : Ty) (x : Ref)
  /-- Compare values of a type. -/
  | compare (cond : Cond) (ty : Ty) (l r : Ref)
  | convert (target source : Ty) (x : Ref)
  /-- The pointer of the given type `i` elements of `scale` bytes after `p`. -/
  | ptrAdd (ty : Ty) (p i : Ref) (scale : Int)
  /-- The distance from `q` to `p` in elements of `scale` bytes. -/
  | ptrDiff (p q : Ref) (scale : Int)
  | load (ty : Ty) (p : Ref)
  deriving Repr

namespace Operation

/-- The type of the value. -/
def ty : Operation → Ty
  | const t _ => t
  | binary _ t _ _ => t
  | unary _ t _ => t
  | compare .. => .bool
  | convert target _ _ => target
  | ptrAdd t _ _ _ => t
  | ptrDiff .. => .i64
  | load t _ => t

/-- The computation that yields the value. -/
def compute : Operation → Compute
  | const t x => .imm (t.kind.norm x)
  | binary op t l r => .binary op t.kind l r
  | unary op t x => .unary op t.kind x
  | compare c t l r => .compare c t.kind l r
  | convert target source x => .convert target.kind source.kind x
  | ptrAdd _ p i scale => .ptrAdd scale p i
  | ptrDiff p q scale => .ptrDiff scale p q
  | load t p => .load t.kind p

def expr : Operation → Ssa.Expr
  | const t x => .imm (t.kind.norm x)
  | binary op _ l r => .binary op l r
  | unary op _ x => .unary op x
  | compare c _ l r => .compare c l r
  | convert _ _ x => .convert x
  | ptrAdd _ p i scale => .ptrAdd p i scale
  | ptrDiff p q scale => .ptrDiff p q scale
  | load _ p => .load p

end Operation

/-- How a block ends. -/
inductive Exit
  | jump (target : BlockId)
  | branch (cond : Ref) (yes no : BlockId)
  | ret (x : Option Ref)
  deriving DecidableEq, Repr

namespace Exit

/-- The expression that ends a block in single assignment form. -/
def expr : Exit → Ssa.Expr
  | jump t => .jump t
  | branch c yes no => .branch c yes no
  | ret x => .ret x

/-- The blocks where control may go on. -/
def targets : Exit → List BlockId
  | jump t => [t]
  | branch _ yes no => if yes = no then [yes] else [yes, no]
  | ret _ => []

/-- The values that an exit uses. -/
def reads : Exit → List Ref
  | jump _ => []
  | branch c _ _ => [c]
  | ret x => x.toList

def form : Exit → String
  | jump _ => "asm.B"
  | branch .. => "asm.BCond"
  | ret _ => "asm.Ret"

end Exit

end Codesmith.Gen
