import Codesmith.Text.Quoted
import Codesmith.Word.Kind
import Codesmith.Word.Op

/-!
# Faults

A fault ends a computation at once: it stops generated code in the middle of a run, and it stops a
call that breaks a rule its caller had to keep. Faults are causes; their wording is `Fault.message`.
-/

namespace Codesmith

/-- Why a computation was stopped. -/
inductive Fault
  | divideByZero
  /-- The nil address was used, an address outside all memory, or something absent. -/
  | invalidAddress
  | negativeShift
  | indexOutOfRange (index : Int) (length : Nat)
  /-- The rest of an empty list was asked for. -/
  | emptyTail
  | unsupportedBinary (op : Op)
  | unsupportedUnary (op : Op)
  | unsupportedCond (text : String)
  | integerToPointer
  | loadKind (kind : Kind)
  | storeKind (kind : Kind)
  /-- Two sets with different least keys were merged. -/
  | mergeBases
  deriving DecidableEq, Repr

namespace Fault

/-- The wording of a fault. -/
def message : Fault → String
  | divideByZero => "runtime error: integer divide by zero"
  | invalidAddress => "runtime error: invalid memory address or nil pointer dereference"
  | negativeShift => "runtime error: negative shift amount"
  | indexOutOfRange i n =>
    let place := "runtime error: index out of range [" ++ toString i ++ "]"
    if i < 0 then place else place ++ " with length " ++ toString n
  | emptyTail => "runtime error: slice bounds out of range [1:0]"
  | unsupportedBinary op => "rt: unsupported binary op: " ++ op.text
  | unsupportedUnary op => "rt: unsupported unary op: " ++ op.text
  | unsupportedCond c => "rt: unsupported condition: " ++ Text.quote c
  | integerToPointer => "rt: integer to pointer conversion"
  | loadKind k => "rt: load of kind " ++ k.text
  | storeKind k => "rt: store of kind " ++ k.text
  | mergeBases => "set: merge of sets with different bases"

end Fault

/-- The element of `xs` at a possibly negative index; an index outside is a fault. -/
def fetch {α : Type} (xs : Array α) (i : Int) : Except Fault α :=
  match i with
  | .ofNat n =>
    match xs[n]? with
    | some x => .ok x
    | none => .error (.indexOutOfRange n xs.size)
  | .negSucc _ => .error (.indexOutOfRange i xs.size)

/-- The element of `xs` at a possibly negative index, if there is one. -/
def fetch? {α : Type} (xs : Array α) (i : Int) : Option α :=
  match i with
  | .ofNat n => xs[n]?
  | .negSucc _ => none

end Codesmith
