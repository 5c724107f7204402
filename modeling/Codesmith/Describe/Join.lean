import Codesmith.Describe.Sketch

/-!
# Where control flow joins

At a join every variable has one value for each edge. Where these differ, the join makes a value of its
own from them. The head of a loop is a join whose edges are not all known when it is made: every
variable gets a value there, to which the edges back to the head are added as they come up.
-/

namespace Codesmith.Describe

/-- The edge from the current block, with the values of the first `n` variables. -/
def Sketch.flow (s : Sketch) (n : Nat) : EdgeFlow :=
  ⟨s.gen.current, s.snapshot n⟩

/-- The variables among the first `n` that are in scope and, if a set is given, belong to it. -/
def Sketch.joined (s : Sketch) (n : Nat) (assigned : Option BitSet.Plain) : List Int :=
  ((s.vars.extract 0 n).toList.zipIdx.filter fun p =>
    !s.isClosed p.1 && (assigned.map fun a => a.contains p.2).getD true).map fun p => (p.2 : Int)

/-- Let a variable join its values on all edges at a block. -/
def joinVar (join : BlockId) (v : MergedVar) : Edit Unit := do
  let s ← get
  let t := ((fetch? s.vars v.var).map Var.ty).getD .void
  let ref ← generate (Gen.Generator.phi join t)
  v.incoming.forM fun e => instruct (Gen.Generator.addIncoming ref e.source e.ref)
  modify fun s => s.setRef v.var.toNat ref

/-- Go on at a block where edges meet. Without an edge the block cannot be reached; with one edge
the variables keep their values. -/
def merge (join : BlockId) (flows : List EdgeFlow) (n : Nat) (assigned : Option BitSet.Plain) :
    Edit Unit := do
  setBlock join
  match flows with
  | [] => modify fun s => { s with dead := true }
  | [f] =>
    modify fun s => { s with dead := false }
    restore f.refs
  | f :: _ =>
    modify fun s => { s with dead := false }
    let vars := (← get).joined n assigned
    restore f.refs
    let m ← MergeSet.build join flows vars
    m.vars.forM (joinVar join)

/-- Let a variable have a value of its own at the head of a loop, to be joined with others later. -/
def openVar (head source : BlockId) (id : Nat) (v : Var) : Edit Ref := do
  if (← get).isClosed v then return noRef
  let ref ← generate (Gen.Generator.phi head v.ty)
  instruct (Gen.Generator.addIncoming ref source v.ref)
  modify fun s => s.setRef id ref
  return ref

/-- Go to the head of a loop. -/
def enterLoop (l : Loop) (position : Position) : Edit Loop := do
  let s ← get
  let source := s.gen.current
  terminate (.jump l.head) position
  setBlock l.head
  if s.dead then return l
  let phis ← (s.vars.extract 0 l.size).toList.zipIdx.mapM fun p => openVar l.head source p.2 p.1
  return { l with phis }

def backEdge (l : Loop) (f : EdgeFlow) : Edit Unit :=
  (l.phis.zip f.refs.toList).forM fun p =>
    if p.1 = noRef then pure () else instruct (Gen.Generator.addIncoming p.1 f.source p.2)

/-- Give the variables from variable `i` on that were not assigned in a loop the values they had before
it. -/
def Sketch.keepFrom (s : Sketch) (assigned : BitSet.Plain) (i : Nat) : List Ref → Sketch
  | [] => s
  | r :: rs =>
    let s := if assigned.contains i then s else s.setRef i r
    s.keepFrom assigned (i + 1) rs

/-- Give the variables that were not assigned in a loop the values they had before it. -/
def keepUnassigned (before : Array Ref) (assigned : BitSet.Plain) : Edit Unit :=
  modify fun s => s.keepFrom assigned 0 before.toList

end Codesmith.Describe
