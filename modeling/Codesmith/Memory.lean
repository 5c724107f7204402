import Codesmith.Word.Basic

/-!
# Byte memory

Memory is a list of buffers of bytes in one address space of 64 bits. Buffer `i` starts at the
address `Memory.origin i`; the origins are so far apart that no buffer reaches the next one, and nil
lies below all of them. Numbers are stored with the least byte first, at any address, and a pointer
is stored as the address it points to.

Loads and stores touch the bytes of one value. They fault when one of these bytes lies in no buffer,
so nil faults like every other wild address.
-/

namespace Codesmith

/-- Buffers of bytes in one address space. -/
structure Memory where
  buffers : Array (Array UInt8)
  deriving DecidableEq, Repr

/-- The number whose bytes are given, least byte first. -/
def ofBytes : List UInt8 → UInt64
  | [] => 0
  | b :: bs => b.toUInt64 ||| (ofBytes bs <<< 8)

/-- The `n` low bytes of a number, least byte first. -/
def toBytes : Nat → UInt64 → List UInt8
  | 0, _ => []
  | n + 1, x => x.toUInt8 :: toBytes n (x >>> 8)

namespace Memory

/-- The memory without buffers. -/
def empty : Memory := ⟨#[]⟩

/-- The distance between the origins of two buffers that follow each other. -/
def span : Nat := 1099511627776

/-- The address of the first byte of buffer `i`. -/
def origin (i : Nat) : UInt64 :=
  UInt64.ofNat (i + 1) <<< 40

/-- The buffer and the offset of an address; small addresses are in no buffer. -/
def locate (a : UInt64) : Option (Nat × Nat) :=
  match (a >>> 40).toNat with
  | 0 => none
  | i + 1 => some (i, (a &&& 0xffffffffff).toNat)

def byte? (m : Memory) (a : UInt64) : Option UInt8 :=
  match locate a with
  | none => none
  | some (i, o) => (m.buffers[i]?).bind fun b => b[o]?

/-- The memory with the byte at an address replaced, if there is one. -/
def setByte (m : Memory) (a : UInt64) (x : UInt8) : Memory :=
  match locate a with
  | none => m
  | some (i, o) => { m with buffers := m.buffers.modify i fun b => b.setIfInBounds o x }

/-- The `n` bytes from an address on. -/
def bytes? (m : Memory) (a : UInt64) : Nat → Option (List UInt8)
  | 0 => some []
  | n + 1 =>
    match m.byte? a, m.bytes? (a + 1) n with
    | some b, some bs => some (b :: bs)
    | _, _ => none

/-- The memory with the bytes from an address on replaced. -/
def setBytes (m : Memory) (a : UInt64) : List UInt8 → Memory
  | [] => m
  | b :: bs => (m.setByte a b).setBytes (a + 1) bs

/-- The value of a kind that the pointer `p` points to. -/
def load (m : Memory) (k : Kind) (p : Word) : Except Fault Word :=
  match k with
  | .invalid | .unknown _ => .error (.loadKind k)
  | k =>
    match m.bytes? p.addr k.size with
    | none => .error .invalidAddress
    | some bs =>
      if k = .ptr then .ok (Word.ofAddress (ofBytes bs))
      else .ok (Word.ofBits (k.norm (ofBytes bs)))

/-- Why no value of a kind can be written to where `p` points, if so. -/
def storeFault? (m : Memory) (k : Kind) (p : Word) : Option Fault :=
  match k with
  | .invalid | .unknown _ => some (.storeKind k)
  | k => if (m.bytes? p.addr k.size).isSome then none else some .invalidAddress

/-- The memory with the bytes of the value `x` of a kind where `p` points. -/
def put (m : Memory) (k : Kind) (p x : Word) : Memory :=
  m.setBytes p.addr (toBytes k.size (if k = .ptr then x.addr else x.bits))

/-- The memory after the value `x` of a kind is written to where `p` points. -/
def store (m : Memory) (k : Kind) (p x : Word) : Except Fault Memory :=
  match m.storeFault? k p with
  | some f => .error f
  | none => .ok (m.put k p x)

/-- The bytes of elements of a kind laid out one after another. -/
def pack (k : Kind) (elements : List UInt64) : Array UInt8 :=
  (elements.flatMap (toBytes k.size)).toArray

/-- The elements of a kind that `count` groups of bytes hold. -/
def unpackFrom (size : Nat) : Nat → List UInt8 → List UInt64
  | 0, _ => []
  | count + 1, bs => ofBytes (bs.take size) :: unpackFrom size count (bs.drop size)

/-- The elements of a kind that a buffer holds. A truth value is the byte that holds it. -/
def unpack (k : Kind) (buffer : Array UInt8) : List UInt64 :=
  let elements := unpackFrom k.size (buffer.size / k.size) buffer.toList
  if k = .bool then elements else elements.map k.norm

/-- An address as the nearest buffer and the signed distance from its start; nil has no place. -/
def place? (a : UInt64) : Option (Int × Int) :=
  if a = 0 then none
  else
    let nearest : Nat := (a.toNat + span / 2) / span
    some ((nearest : Int) - 1, (a.toNat : Int) - (nearest * span : Nat))

end Memory

end Codesmith
