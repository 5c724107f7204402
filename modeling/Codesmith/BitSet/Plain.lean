import Codesmith.BitSet.Positions
import Codesmith.Wire

/-!
# Sets of natural numbers

A plain set grows with its members. Like an anchored set it may be made without storage. A set may
also be missing: a missing set has no members and no size, and everything else one does with it is a
fault.
-/

namespace Codesmith.BitSet

/-- A set of natural numbers. -/
structure Plain where
  bits : Nat
  /-- Whether the set has storage. -/
  stored : Bool
  deriving DecidableEq, Repr

namespace Plain

def empty : Plain := ⟨0, true⟩

/-- The empty set that has no storage yet. -/
def bare : Plain := ⟨0, false⟩

/-- The members, ascending. -/
def toList (s : Plain) : List Int :=
  (positions s.bits).map Int.ofNat

/-- Whether `k` is a member. -/
def contains (s : Plain) (k : Int) : Bool :=
  decide (0 ≤ k) && s.bits.testBit k.toNat

/-- The number of members. -/
def size (s : Plain) : Nat :=
  (positions s.bits).length

/-- The set with one member more. -/
def add (s : Plain) (i : Nat) : Plain :=
  ⟨insertBit s.bits i, true⟩

/-- The set with `k`; a negative key is a fault. -/
def insert (s : Plain) (k : Int) : Except Fault Plain :=
  if 0 ≤ k then .ok (s.add k.toNat) else .error (positionFault k)

/-- The set without `k`. A negative key is a fault, unless there is no storage in which it could
be looked for. -/
def erase (s : Plain) (k : Int) : Except Fault Plain :=
  if 0 ≤ k then .ok { s with bits := eraseBit s.bits k.toNat }
  else if k.tdiv 64 = 0 ∧ !s.stored then .ok s
  else .error (positionFault k)

/-- The union of two sets. -/
def union (s t : Plain) : Plain :=
  ⟨s.bits ||| t.bits, s.stored || t.stored⟩

/-- A set of its own with the same members. -/
def copy (s : Plain) : Plain :=
  { s with stored := true }

/-- The set without members; it keeps its storage. -/
def clear (s : Plain) : Plain :=
  { s with bits := 0 }

/-- The greatest member, or `-1`. -/
def last (s : Plain) : Int :=
  if s.bits = 0 then -1 else s.bits.log2

/-- One more than the greatest member. -/
def bound (s : Plain) : Int :=
  s.last + 1

/-- The members in ascending order, shown to `f` until it answers `false`. -/
def visit {σ : Type} (s : Plain) (f : Int → σ → Bool × σ) (init : σ) : σ :=
  BitSet.visit f s.toList init

/-- The wire form of a set. -/
def wire (s : Plain) : List UInt8 :=
  if s.stored then Wire.openArray (s.toList.map Wire.int) else Wire.absent

/-- The set itself; a missing one is a fault. -/
def require : Option Plain → Except Fault Plain
  | some s => .ok s
  | none => .error .invalidAddress

end Plain

end Codesmith.BitSet
