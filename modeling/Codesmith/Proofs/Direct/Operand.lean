import Codesmith.Describe.Operations
import Codesmith.Proofs.Direct.Node

/-!
# Operands of statements

The handles and constants of a description as they stand in a structured program: a handle for the
variable it refers to, and a constant for its word in the type that is asked for.
-/

namespace Codesmith.Describe

open Direct (Node Source)

/-- The variable of a handle. -/
def Value.cell (w : Value) : Nat :=
  w.var.getD 0

/-- Where an operand that takes a type gets its word from. -/
def Operand.source (t : Ty) : Operand → Source
  | .value v => .cell ((v.map Value.cell).getD 0)
  | .const c => .word (t.kind.norm ((constBits t c).getD 0))

/-- What a function returns. -/
def Operand.result (t : Ty) (x : Operand) : Option Source :=
  if x.isNothing then none else some (x.source t)

def conditionCell (c : Option Value) : Nat :=
  (c.map Value.cell).getD 0

/-- The statement that a conversion stands for; without a change of type nothing is computed. -/
def conversion (out : Nat) (target source : Ty) (v : Nat) : Node :=
  if source.equal target then .take out (.cell v)
  else .make out (.convert target.kind source.kind 0) v (.cell v)

def fieldOffset (f : Field Ty) : Operand :=
  .const (.int (.int (some .w64) true) f.offset)

end Codesmith.Describe
