import Codesmith.Host.Value
import Codesmith.Ty.Text

/-!
# Values of a description

A description computes nothing: it works with handles to variables of the function that is being
described. A handle knows the function it belongs to. A call that was rejected yields a handle
without a variable, which every later use refuses.
-/

namespace Codesmith.Describe

open Host

/-- The identity of a described function. -/
structure FuncId where
  number : Nat
  name : String
  deriving DecidableEq, Repr

/-- A handle to a variable. -/
structure Value where
  owner : FuncId
  ty : Ty
  /-- The variable; absent if the handle came from a rejected call. -/
  var : Option Nat
  deriving Repr

def Value.text (v : Value) : String :=
  let id : Int := (v.var.map Int.ofNat).getD (-1)
  "v" ++ toString id ++ "(" ++ v.ty.shown ++ ")"

/-- What an operation takes besides its first value: another value, which may be missing, or a
constant of the host program. -/
inductive Operand
  | value (v : Option Value)
  | const (x : HostValue)
  deriving Repr

namespace Operand

def typeName : Operand → String
  | value _ => "*meta.Value"
  | const x => x.typeName

/-- The text of an operand, where slices show what they hold in memory. -/
def shown (m : Memory) : Operand → String
  | value none => "<nil>"
  | value (some v) => v.text
  | const x => x.shown m

/-- Whether the operand is the constant that is no value. -/
def isNothing : Operand → Bool
  | const .nothing => true
  | _ => false

end Operand

/-- The bits of a constant in a type that can represent it. -/
def constBits (t : Ty) (x : HostValue) : Option UInt64 :=
  match t, x with
  | .bool, .bool b => some (if b then 1 else 0)
  | .ptr _, .nothing => some 0
  | .int bits signed, .int _ n =>
    if n < 0 then if signed ∧ Ty.least bits signed ≤ n then some (UInt64.ofInt n) else none
    else if n ≤ (Ty.greatest bits signed).toNat then some (UInt64.ofInt n) else none
  | _, _ => none

/-- The constant `n` as the host program writes it. -/
def Operand.ofInt (n : Int) : Operand :=
  .const (.int (.int none true) n)

end Codesmith.Describe
