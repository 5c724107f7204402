import Codesmith.Fault
import Codesmith.Wire

/-!
# Merging the values of variables at a join

Where several edges of control flow meet, each variable comes with one value per edge. A merge lists
the variables whose values differ, with the value that each edge carries; all other variables keep
their one value.
-/

namespace Codesmith

/-- A value of a code generator; negative numbers stand for no value. -/
abbrev Ref := Int

/-- The number of a block of a code generator. -/
abbrev BlockId := Int

/-- The reference that stands for no value. -/
def noRef : Ref := -1

/-- The value that a variable carries along one edge. -/
structure EdgeValue where
  source : BlockId
  ref : Ref
  deriving DecidableEq, Repr

/-- An edge with the values of all variables. -/
structure EdgeFlow where
  source : BlockId
  refs : Array Ref
  deriving DecidableEq, Repr, Inhabited

/-- A variable with its values on all edges, and the value that joins them once it exists. -/
structure MergedVar where
  var : Int
  incoming : List EdgeValue
  out : Ref
  deriving DecidableEq, Repr

/-- What is to be joined at a block. -/
structure MergeSet where
  join : BlockId
  vars : List MergedVar
  deriving DecidableEq, Repr

def EdgeValue.wire (e : EdgeValue) : List UInt8 :=
  Wire.intMap [("from", e.source), ("ref", e.ref)]

/-- Whether every edge carries the same value; without any edge there is nothing to compare. -/
def MergedVar.same (v : MergedVar) : Except Fault Bool :=
  match v.incoming with
  | [] => .error .emptyTail
  | e :: es => .ok (es.all fun e' => e'.ref == e.ref)

namespace MergeSet

def incoming (flows : List EdgeFlow) (var : Int) : Except Fault (List EdgeValue) :=
  flows.mapM fun fl => (fetch fl.refs var).map fun ref => ⟨fl.source, ref⟩

/-- The variables of a list whose values differ between the edges. -/
def differing (flows : List EdgeFlow) : List Int → Except Fault (List MergedVar)
  | [] => .ok []
  | var :: vars => do
    let v : MergedVar := ⟨var, ← incoming flows var, noRef⟩
    if ← v.same then differing flows vars
    else return v :: (← differing flows vars)

/-- What is to be joined at a block for the given edges and variables. -/
def build (join : BlockId) (flows : List EdgeFlow) (vars : List Int) : Except Fault MergeSet :=
  (differing flows vars).map fun vs => ⟨join, vs⟩

end MergeSet

end Codesmith
