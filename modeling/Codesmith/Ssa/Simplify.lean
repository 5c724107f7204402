import Codesmith.Ssa.Verify
import Std.Data.TreeSet

/-!
# Removing trivial phis

A phi is trivial when it merges a single value, possibly together with itself; it can be replaced by
that value. Replacing a phi may make others trivial, so the phis that read it are looked at again.
The phi with the least number goes first. The value that took the place of a phi may be replaced later;
`Replaced.apply` follows a reference to the value that stands for it in the end.
-/

namespace Codesmith.Ssa

/-- The replaced phis, each with the value that took its place. -/
structure Replaced where
  /-- By number of an expression. -/
  values : Array (Option Ref)
  /-- How many phis were replaced. -/
  count : Nat
  deriving DecidableEq, Repr

namespace Replaced

/-- Nothing is replaced among so many expressions. -/
def empty (n : Nat) : Replaced := ⟨Array.replicate n none, 0⟩

/-- The value that took the place of a reference, if it was replaced. -/
def value? (s : Replaced) (x : Ref) : Option Ref :=
  (fetch? s.values x).join

/-- Whether an expression was replaced. -/
def contains (s : Replaced) (id : Nat) : Bool :=
  (s.value? id).isSome

/-- Follow a reference in at most so many steps. -/
def follow (s : Replaced) : Nat → Ref → Ref
  | 0, x => x
  | fuel + 1, x =>
    match s.value? x with
    | some y => s.follow fuel y
    | none => x

/-- The value that stands for a reference. No phi is met twice on the way to it. -/
def apply (s : Replaced) (x : Ref) : Ref :=
  s.follow s.values.size x

/-- Replace one more phi. -/
def insert (s : Replaced) (id : Nat) (value : Ref) : Replaced :=
  ⟨s.values.setIfInBounds id (some value), s.count + 1⟩

end Replaced

structure PhiSearch where
  replaced : Replaced
  /-- The phis that read each expression, also by way of a replaced phi. -/
  readers : Array (List Nat)
  /-- The phis to look at. -/
  queue : Std.TreeSet Nat

namespace PhiSearch

/-- Give a value the place of a phi, and look at the readers of the phi again. -/
def replace (w : PhiSearch) (id : Nat) (value : Ref) : PhiSearch :=
  let readers := w.readers.getD id []
  { replaced := w.replaced.insert id value
    readers := w.readers.modify value.toNat fun us => if value < 0 then us else readers ++ us
    queue := (readers.filter (· != id)).foldl (fun q u => q.insert u) w.queue }

end PhiSearch

namespace Func

/-- The only value among the branches of a phi besides the phi itself, starting from what was seen
before; `noRef` if there is none or more than one. -/
def soleValue (id : Nat) (ren : Ref → Ref) : List PhiBranch → Ref → Ref
  | [], seen => seen
  | b :: bs, seen =>
    let x := ren b.value
    if x = id ∨ x = seen then soleValue id ren bs seen
    else if seen ≠ noRef then noRef
    else soleValue id ren bs x

/-- Note that a phi reads the values of its branches. -/
def noteReads (f : Func) (readers : Array (List Nat)) (id : Nat) : Array (List Nat) :=
  (f.branches id).foldl (fun rs b => if b.value < 0 then rs else rs.modify b.value.toNat (id :: ·)) readers

def startSearch (f : Func) (phis : List Nat) : PhiSearch :=
  { replaced := .empty f.entries.size
    readers := phis.foldl f.noteReads (Array.replicate f.entries.size [])
    queue := phis.foldl (fun q id => q.insert id) ∅ }

/-- Look at a phi of the queue. -/
def inspect (f : Func) (w : PhiSearch) (id : Nat) : PhiSearch :=
  let w := { w with queue := w.queue.erase id }
  if w.replaced.contains id then w
  else
    let value := soleValue id w.replaced.apply (f.branches id) noRef
    if value = noRef then w else w.replace id value

/-- Look at the phis of the queue, least first, until it is empty. -/
def replaceTrivial (f : Func) : Nat → PhiSearch → Replaced
  | 0, w => w.replaced
  | fuel + 1, w =>
    match w.queue.min? with
    | none => w.replaced
    | some id => f.replaceTrivial fuel (f.inspect w id)

/-- The trivial phis of the reachable blocks with the values that stand for them. Every phi is
replaced at most once, and between two replacements the queue only shrinks. -/
def trivialPhis (f : Func) : Replaced :=
  let phis := f.phisOf fun l => f.reachable l
  let n := phis.length
  f.replaceTrivial ((n + 1) * (n + 1)) (f.startSearch phis)

/-- Replace the operands of an expression by the values that stand for them. -/
def renameOperands (s : Replaced) (f : Func) (id : Nat) : Func :=
  { f with entries := f.entries.modify id fun e => { e with expr := e.expr.mapOperands s.apply } }

def dropPhis (f : Func) (s : Replaced) : Array Block :=
  f.blocks.mapIdx fun l b =>
    if f.reachable l then { b with phis := b.phis.filter fun id => !s.contains id } else b

/-- The expressions of the reachable blocks. -/
def reachableIds (f : Func) : List Nat :=
  f.blocks.toList.zipIdx.flatMap fun b =>
    if f.reachable b.2 then b.1.phis ++ b.1.code ++ b.1.term.toList else []

/-- Remove the trivial phis of the reachable blocks, and tell how many they were. -/
def removeTrivialPhis (f : Func) : Nat × Func :=
  let s := f.trivialPhis
  if s.count = 0 then (0, f)
  else
    let f := { f with blocks := f.dropPhis s }
    (s.count, f.reachableIds.foldl (renameOperands s) f)

end Func

end Codesmith.Ssa
