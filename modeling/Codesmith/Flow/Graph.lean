import Codesmith.Fault

/-!
# Control flow graphs

The blocks of a function are numbered from `0`, the entry, and each has a list of successors. From
these the graph derives what later passes ask for: the predecessors of each block, the reachable
blocks in reverse postorder, and the immediate dominators.

* `Graph.depthFirst` visits the blocks reachable from a list of blocks. A finished block is put in
  front of the blocks that were finished before it, so the result is already in reverse postorder.
* `Graph.solve` computes immediate dominators by rounds over the blocks in reverse postorder, until
  a round changes nothing.
* `Graph.dominates` climbs the tree of immediate dominators.
-/

namespace Codesmith

/-- The number of a block. -/
abbrev Label := Nat

/-- What is known of the control flow between blocks. -/
structure Graph where
  /-- The predecessors of each block, ascending, one for each edge. -/
  preds : Array (List Label)
  /-- The reachable blocks in reverse postorder. -/
  rpo : List Label
  /-- The place of each reachable block in reverse postorder. -/
  order : Array (Option Nat)
  /-- The immediate dominator of each reachable block; the entry is its own. -/
  idom : Array (Option Label)
  deriving Repr, Inhabited

namespace Graph

/-- The block where control starts. -/
def entry : Label := 0

/-! ## Depth-first search -/

/-- The blocks seen so far, and those whose successors are all done, latest first. -/
structure Visit where
  seen : Array Bool
  done : List Label
  deriving Repr

/-- The label of a block below `n`. -/
def inRange? (n : Nat) (s : Int) : Option Label :=
  match s with
  | .ofNat l => if l < n then some l else none
  | .negSucc _ => none

/-- Visit the blocks of a list in order, each with the blocks reachable from it that are not seen yet.
The depth bounds the length of the path that leads to a visited block. -/
def depthFirst (n : Nat) (succs : Label → List Int) : Nat → List Int → Visit → Visit
  | 0, _, v => v
  | depth + 1, blocks, v => blocks.foldl (fun v s =>
      match inRange? n s with
      | none => v
      | some l =>
        if v.seen.getD l true then v
        else
          let w := depthFirst n succs depth (succs l) { v with seen := v.seen.setIfInBounds l true }
          { w with done := l :: w.done }) v

/-- The search of all blocks reachable from the entry. -/
def explore (n : Nat) (succs : Label → List Int) : Visit :=
  depthFirst n succs n [(entry : Int)] ⟨Array.replicate n false, []⟩

/-! ## Predecessors -/

/-- Record block `l` as a predecessor of each of its successors. -/
def addPreds (l : Label) : List Int → Array (List Label) → Except Fault (Array (List Label))
  | [], preds => .ok preds
  | s :: ss, preds =>
    match inRange? preds.size s with
    | none => .error (.indexOutOfRange s preds.size)
    | some t => addPreds l ss (preds.modify t fun ps => ps ++ [l])

/-- Record all given blocks as predecessors of their successors. -/
def collectPreds (succs : Label → List Int) :
    List Label → Array (List Label) → Except Fault (Array (List Label))
  | [], preds => .ok preds
  | l :: ls, preds =>
    match addPreds l (succs l) preds with
    | .error f => .error f
    | .ok preds' => collectPreds succs ls preds'

def places (n : Nat) (rpo : List Label) : Array (Option Nat) :=
  rpo.zipIdx.foldl (fun order p => order.setIfInBounds p.1 (some p.2)) (Array.replicate n none)

/-! ## Immediate dominators -/

/-- The place of a block in reverse postorder; a block without one is a fault. -/
def placeOf (order : Array (Option Nat)) (l : Label) : Except Fault Nat :=
  match order[l]? with
  | some (some i) => .ok i
  | _ => .error (.indexOutOfRange (-1) order.size)

/-- The immediate dominator found so far for a block; a block without one is a fault. -/
def idomOf (idom : Array (Option Label)) (l : Label) : Except Fault Label :=
  match idom[l]? with
  | some (some d) => .ok d
  | _ => .error (.indexOutOfRange (-1) idom.size)

/-- The nearest common ancestor of two blocks in the tree of immediate dominators found so far: the
block that comes later in reverse postorder climbs. -/
def intersect (order : Array (Option Nat)) (idom : Array (Option Label)) :
    Nat → Label → Label → Except Fault Label
  | 0, a, _ => .ok a
  | steps + 1, a, b =>
    if a = b then .ok a
    else do
      let i ← placeOf order a
      let j ← placeOf order b
      if j < i then intersect order idom steps (← idomOf idom a) b
      else intersect order idom steps a (← idomOf idom b)

/-- The common ancestor of those predecessors that have a dominator already. -/
def candidate (order : Array (Option Nat)) (idom : Array (Option Label)) :
    List Label → Option Label → Except Fault (Option Label)
  | [], d => .ok d
  | p :: ps, d =>
    match idom[p]?.join, d with
    | none, d => candidate order idom ps d
    | some _, none => candidate order idom ps (some p)
    | some _, some d => do
      candidate order idom ps (some (← intersect order idom (2 * order.size) p d))

/-- One round over the blocks of a list, and whether it changed anything. -/
def round (preds : Array (List Label)) (order : Array (Option Nat)) :
    List Label → Array (Option Label) → Bool → Except Fault (Array (Option Label) × Bool)
  | [], idom, changed => .ok (idom, changed)
  | b :: bs, idom, changed => do
    let d ← candidate order idom (preds.getD b []) none
    if idom[b]?.join = d then round preds order bs idom changed
    else round preds order bs (idom.setIfInBounds b d) true

/-- Rounds until nothing changes, at most so many. -/
def solve (preds : Array (List Label)) (order : Array (Option Nat)) (blocks : List Label) :
    Nat → Array (Option Label) → Except Fault (Array (Option Label))
  | 0, idom => .ok idom
  | rounds + 1, idom => do
    let (idom', changed) ← round preds order blocks idom false
    if changed then solve preds order blocks rounds idom' else return idom'

/-! ## The graph -/

/-- The graph of `n` blocks with the given successors. A successor of a reachable block that is no
block is a fault, and so is the lack of an entry. -/
def build (n : Nat) (succs : Label → List Int) : Except Fault Graph :=
  if n = 0 then .error (.indexOutOfRange 0 0)
  else do
    let v := explore n succs
    let visited := (List.range n).filter fun l => v.seen.getD l false
    let preds ← collectPreds succs visited (Array.replicate n [])
    let order := places n v.done
    let start := (Array.replicate n none).setIfInBounds entry (some entry)
    let idom ← solve preds order v.done.tail (n * n + 1) start
    return { preds, rpo := v.done, order, idom }

/-- Whether a block is reachable from the entry. -/
def reachable (g : Graph) (l : Label) : Bool :=
  g.order[l]?.join.isSome

/-- Whether `a` is `b` or among the blocks above `b` in the tree of immediate dominators, at most
`steps` of them. -/
def climbs (g : Graph) (a : Label) : Nat → Label → Bool
  | 0, b => a = b
  | steps + 1, b =>
    if a = b then true
    else if b = entry then false
    else match g.idom[b]?.join with
      | none => false
      | some d => climbs g a steps d

/-- Whether every path from the entry to `b` passes `a`. -/
def dominates (g : Graph) (a b : Label) : Bool :=
  g.climbs a g.idom.size b

end Graph

end Codesmith
