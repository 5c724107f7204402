import Codesmith.Ssa.Func

/-!
# Listings of functions

A listing shows every block under its number and name, and every expression on a line of its own.
-/

namespace Codesmith.Ssa.Func

def valueText (id : Ref) : String :=
  "v" ++ toString id

def blockText (f : Func) (l : Int) : String :=
  match fetch? f.blocks l with
  | none => "b" ++ toString l
  | some b => "b" ++ toString l ++ "." ++ b.name

def branchesText (f : Func) (bs : List PhiBranch) : String :=
  Text.joinWith "," (bs.map fun b => " [" ++ f.blockText b.block ++ ": " ++ valueText b.value ++ "]")

/-- The right-hand side of an expression with a value. -/
def rhsText (f : Func) : Expr → Except Fault String
  | .arg n => .ok ("arg " ++ toString n)
  | .imm x => .ok (Text.hexMarked x.toNat)
  | .binary op l r => .ok (op.text ++ " " ++ valueText l ++ ", " ++ valueText r)
  | .unary op x => .ok (op.text ++ " " ++ valueText x)
  | .compare c l r => .ok (valueText l ++ " " ++ c.text ++ " " ++ valueText r)
  | .convert x => (fetch f.entries x).map fun e => "conv " ++ valueText x ++ " " ++ e.ty.shown
  | .ptrAdd p i scale => .ok (valueText p ++ " + " ++ valueText i ++ "*" ++ toString scale)
  | .ptrDiff l r scale =>
    .ok ("(" ++ valueText l ++ " - " ++ valueText r ++ ") / " ++ toString scale)
  | .load p => .ok ("load [" ++ valueText p ++ "]")
  | .phi bs => .ok ("phi" ++ f.branchesText bs)
  | .foreign type text => .ok (type ++ " " ++ text)
  | .store .. | .jump _ | .branch .. | .ret _ => .ok ""

def exprText (f : Func) (id : Ref) : Except Fault String :=
  match f.entryOf? id with
  | none => .ok ("<bad " ++ toString id ++ ">")
  | some e =>
    match e.expr with
    | .jump l => .ok ("b " ++ f.blockText l)
    | .branch c yes no =>
      .ok ("b.if " ++ valueText c ++ ", " ++ f.blockText yes ++ ", " ++ f.blockText no)
    | .ret none => .ok "ret"
    | .ret (some x) => .ok ("ret " ++ valueText x)
    | .store p x => .ok ("store [" ++ valueText p ++ "], " ++ valueText x)
    | x => (f.rhsText x).map fun s => valueText id ++ " " ++ e.ty.shown ++ " = " ++ s

/-- The arguments and the result in the head of a listing. -/
def sigText (f : Func) : String :=
  "(" ++ Text.joinWith ", " ((f.args.zip f.sig.params).map fun p =>
    valueText p.1 ++ " " ++ p.2.shown) ++ ")" ++
  match f.sig.result with
  | .void => ""
  | t => " " ++ t.shown

def blockLines (f : Func) (l : Label) (b : Block) : Except Fault String := do
  let mark := if f.reachable l || l == Graph.entry then "" else " // unreachable"
  let lines ← (b.phis ++ b.code ++ b.term.toList).mapM fun (id : Nat) =>
    (f.exprText id).map fun s => "\t" ++ s ++ "\n"
  return f.blockText l ++ ":" ++ mark ++ "\n" ++ String.join lines

def listing (f : Func) : Except Fault String := do
  let parts ← f.blocks.toList.zipIdx.mapM fun p => f.blockLines p.2 p.1
  return "func " ++ f.name ++ f.sigText ++ " \x7b\n" ++ String.join parts ++ "\x7d\n"

end Codesmith.Ssa.Func
