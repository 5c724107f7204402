import Codesmith.BitSet.Positions
import Codesmith.Wire

/-!
# Sets of keys from a base on

An anchored set holds keys that are not below its base. Keys are signed numbers of 64 bits, and the
position of a key is its distance from the base, which wraps at that width. Only sets with one base can
be merged.

A set has storage for a number of groups of 64 positions. A set made without storage shows this in its
wire form until it gets some, and a negative position is refused only where there is a group to look
into.
-/

namespace Codesmith.BitSet

/-- A set of keys not below a base. -/
structure Anchored where
  base : Int64
  /-- The positions are the distances of the keys from the base. -/
  bits : Nat
  /-- The number of groups with storage, if the set has storage. -/
  groups : Option Nat
  deriving DecidableEq, Repr

namespace Anchored

def empty (base : Int64) : Anchored := ⟨base, 0, some 0⟩

/-- The empty set that has no storage yet. -/
def bare : Anchored := ⟨0, 0, none⟩

/-- The number of groups with storage. -/
def groupCount (s : Anchored) : Nat :=
  s.groups.getD 0

def position (s : Anchored) (k : Int64) : Int :=
  (k - s.base).toInt

/-- The members, by ascending position. -/
def toList (s : Anchored) : List Int64 :=
  (positions s.bits).map fun p => s.base + Int64.ofNat p

/-- The number of members. -/
def size (s : Anchored) : Nat :=
  (positions s.bits).length

/-- Whether a key is not looked for at all: it is below the base, or its position is negative and there
is no group. -/
def skips (s : Anchored) (k : Int64) : Bool :=
  decide (k < s.base) ||
    decide (s.position k < 0 ∧ (s.position k).tdiv 64 = 0 ∧ s.groupCount = 0)

/-- Whether `k` is a member. A key so far above the base that its position is negative is a fault. -/
def contains (s : Anchored) (k : Int64) : Except Fault Bool :=
  if s.skips k then .ok false
  else if 0 ≤ s.position k then .ok (s.bits.testBit (s.position k).toNat)
  else .error (positionFault (s.position k))

/-- A set of its own with the same members. -/
def copy (s : Anchored) : Anchored :=
  { s with groups := some s.groupCount }

/-- The set with `k`; a key with a negative position is a fault. -/
def insert (s : Anchored) (k : Int64) : Except Fault Anchored :=
  if 0 ≤ s.position k then
    let p := (s.position k).toNat
    .ok { s with bits := insertBit s.bits p, groups := some (max s.groupCount (p / 64 + 1)) }
  else .error (positionFault (s.position k))

/-- The set without `k`. A key so far above the base that its position is negative is a fault. -/
def erase (s : Anchored) (k : Int64) : Except Fault Anchored :=
  if s.skips k then .ok s
  else if 0 ≤ s.position k then .ok { s with bits := eraseBit s.bits (s.position k).toNat }
  else .error (positionFault (s.position k))

/-- The union of two sets with one base. -/
def merge (s t : Anchored) : Except Fault Anchored :=
  if s.base = t.base then
    .ok { s with bits := s.bits ||| t.bits, groups := some (max s.groupCount t.groupCount) }
  else .error .mergeBases

/-- The set without members and without groups. -/
def clear (s : Anchored) : Anchored :=
  { s with bits := 0, groups := s.groups.map fun _ => 0 }

/-- The members by ascending position, shown to `f` until it answers `false`. -/
def visit {σ : Type} (s : Anchored) (f : Int64 → σ → Bool × σ) (init : σ) : σ :=
  BitSet.visit f s.toList init

/-- The wire form of a set. -/
def wire (s : Anchored) : List UInt8 :=
  if s.groups.isSome then Wire.openArray (s.toList.map fun k => Wire.int k.toInt) else Wire.absent

/-- The set itself; a missing one is a fault. -/
def require : Option Anchored → Except Fault Anchored
  | some s => .ok s
  | none => .error .invalidAddress

end Anchored

end Codesmith.BitSet
