import Codesmith.Fault

/-!
# Numbers as sets of positions

A natural number is the set of the positions of its one bits. The sets of this library keep their
members in such a number. Members are taken in groups of 64, and a negative position is refused the
way its group or its place in the group is.
-/

namespace Codesmith.BitSet

/-- The positions of the one bits among the `2 ^ level` low bits of a number, ascending, each moved up by
`offset`, in front of `rest`. Halves without a one bit are passed over. -/
def positionsFrom : Nat → Nat → Nat → List Nat → List Nat
  | 0, offset, bits, rest => if bits % 2 = 0 then rest else offset :: rest
  | level + 1, offset, bits, rest =>
    if bits = 0 then rest
    else
      let half := 1 <<< level
      positionsFrom level offset (bits % (1 <<< half))
        (positionsFrom level (offset + half) (bits >>> half) rest)

/-- The positions of the one bits of a number, ascending. -/
def positions (bits : Nat) : List Nat :=
  positionsFrom (bits.log2.log2 + 1) 0 bits []

/-- The number with one bit more. -/
def insertBit (bits i : Nat) : Nat :=
  bits ||| (1 <<< i)

/-- The number with one bit less. -/
def eraseBit (bits i : Nat) : Nat :=
  if bits.testBit i then bits ^^^ (1 <<< i) else bits

/-- The fault of a negative position: its group is negative, or only its place in group `0` is. -/
def positionFault (p : Int) : Fault :=
  if p.tdiv 64 < 0 then .indexOutOfRange (p.tdiv 64) 0 else .negativeShift

/-- The state after `f` has seen the members of a list in order, up to the first for which it
answers `false`. -/
def visit {α σ : Type} (f : α → σ → Bool × σ) : List α → σ → σ
  | [], s => s
  | k :: ks, s =>
    match f k s with
    | (true, s') => visit f ks s'
    | (false, s') => s'

end Codesmith.BitSet
