import Codesmith.Execution
import Codesmith.MergeSet

/-!
# Expressions in single assignment form

Every expression of a function has a number, under which other expressions refer to it. Where control
flow joins, a *phi* takes the value that belongs to the edge by which control came. Terminators and
stores are numbered like everything else.
-/

namespace Codesmith.Ssa

/-- The value that a phi takes when control comes from a block. -/
structure PhiBranch where
  block : Int
  value : Ref
  deriving DecidableEq, Repr

def PhiBranch.wire (b : PhiBranch) : List UInt8 :=
  Wire.intMap [("b", b.block), ("id", b.value)]

inductive Expr
  | arg (n : Int)
  | imm (bits : UInt64)
  | binary (op : Op) (l r : Ref)
  | unary (op : Op) (x : Ref)
  | compare (cond : Cond) (l r : Ref)
  /-- The value of `x` in the type of the expression. -/
  | convert (x : Ref)
  | ptrAdd (p i : Ref) (scale : Int)
  | ptrDiff (l r : Ref) (scale : Int)
  | load (p : Ref)
  | store (p x : Ref)
  | phi (branches : List PhiBranch)
  | jump (label : Int)
  | branch (cond : Ref) (yes no : Int)
  | ret (x : Option Ref)
  /-- A thing that is no expression, by its type and its text. -/
  | foreign (type text : String)
  deriving DecidableEq, Repr

namespace Expr

/-- The name of the form of an expression in messages. -/
def form : Expr → String
  | arg _ => "ir.Arg"
  | imm _ => "ir.Imm"
  | binary .. => "ir.Binary"
  | unary .. => "ir.Unary"
  | compare .. => "ir.Cmp"
  | convert _ => "ir.Conv"
  | ptrAdd .. => "ir.PtrAdd"
  | ptrDiff .. => "ir.PtrDiff"
  | load _ => "ir.Load"
  | store .. => "ir.Store"
  | phi _ => "ir.Phi"
  | jump _ => "ir.B"
  | branch .. => "ir.BCond"
  | ret _ => "ir.Ret"
  | foreign type _ => type

def isPhi : Expr → Bool
  | phi _ => true
  | _ => false

/-- Whether the expression ends its block. -/
def isTerminator : Expr → Bool
  | jump _ | branch .. | ret _ => true
  | _ => false

def branches : Expr → List PhiBranch
  | phi bs => bs
  | _ => []

def operands : Expr → List Ref
  | binary _ l r => [l, r]
  | unary _ x => [x]
  | compare _ l r => [l, r]
  | convert x => [x]
  | ptrAdd p i _ => [p, i]
  | ptrDiff l r _ => [l, r]
  | load p => [p]
  | store p x => [p, x]
  | phi bs => bs.map PhiBranch.value
  | branch c _ _ => [c]
  | ret (some x) => [x]
  | _ => []

def mapOperands (ren : Ref → Ref) : Expr → Expr
  | binary op l r => binary op (ren l) (ren r)
  | unary op x => unary op (ren x)
  | compare c l r => compare c (ren l) (ren r)
  | convert x => convert (ren x)
  | ptrAdd p i scale => ptrAdd (ren p) (ren i) scale
  | ptrDiff l r scale => ptrDiff (ren l) (ren r) scale
  | load p => load (ren p)
  | store p x => store (ren p) (ren x)
  | phi bs => phi (bs.map fun b => { b with value := ren b.value })
  | branch c yes no => branch (ren c) yes no
  | ret (some x) => ret (some (ren x))
  | x => x

/-- The blocks to which a terminator may lead, each once. -/
def targets : Expr → List Int
  | jump l => [l]
  | branch _ yes no => if yes = no then [yes] else [yes, no]
  | _ => []

end Expr

end Codesmith.Ssa
