import Codesmith.Fault

/-!
# Machine words

A word is one register or one argument. An integer or a truth value stands in `bits` and has no
base. A pointer is the base address of an object together with a byte offset into it, so that the
object stays known while the offset moves. The base `0` is nil.

Integers are kept *normal* for their kind: the low bits that count, extended to 64 bits by sign or
by zeros. `Kind.norm` does this, and every operation that yields an integer normalizes its result.
-/

namespace Codesmith

/-- One register or argument. -/
structure Word where
  /-- The base address of a pointer; `0` for nil and for every integer. -/
  base : UInt64
  /-- The integer, or the byte offset of a pointer. -/
  bits : UInt64
  deriving DecidableEq, Repr

/-- The low bits of `x` that count in the kind, extended to 64 bits. -/
def Kind.norm : Kind → UInt64 → UInt64
  | .bool, x => x &&& 1
  | .int .w8 true, x => x.toUInt8.toInt8.toInt64.toUInt64
  | .int .w16 true, x => x.toUInt16.toInt16.toInt64.toUInt64
  | .int .w32 true, x => x.toUInt32.toInt32.toInt64.toUInt64
  | .int .w8 false, x => x.toUInt8.toUInt64
  | .int .w16 false, x => x.toUInt16.toUInt64
  | .int .w32 false, x => x.toUInt32.toUInt64
  | _, x => x

namespace Word

/-- The word with no base and no bits: nil, zero and false. -/
def zero : Word := ⟨0, 0⟩

def ofBits (x : UInt64) : Word := ⟨0, x⟩

def ofAddress (a : UInt64) : Word := ⟨a, 0⟩

/-- A truth value. -/
def ofBool (b : Bool) : Word := ⟨0, if b then 1 else 0⟩

/-- The address that memory operations use: a nil base stays nil whatever the offset. -/
def addr (w : Word) : UInt64 :=
  if w.base = 0 then 0 else w.base + w.bits

/-- The address as a number, which comparisons and conversions use. -/
def rawAddr (w : Word) : UInt64 :=
  w.base + w.bits

/-- Whether a branch on the word is taken. -/
def isTrue (w : Word) : Bool :=
  w.bits != 0

/-- The bits that a binary operation yields before they are normalized. -/
def binaryBits (op : Op) (k : Kind) (a b : UInt64) : Except Fault UInt64 :=
  let count := b &&& (UInt64.ofNat (k.bits - 1))
  match op with
  | .add => .ok (a + b)
  | .sub => .ok (a - b)
  | .mul => .ok (a * b)
  | .div =>
    if b = 0 then .error .divideByZero
    else if k.signed then .ok (a.toInt64 / b.toInt64).toUInt64
    else .ok (a / b)
  | .rem =>
    if b = 0 then .error .divideByZero
    else if k.signed then .ok (a.toInt64 % b.toInt64).toUInt64
    else .ok (a % b)
  | .and => .ok (a &&& b)
  | .or => .ok (a ||| b)
  | .xor => .ok (a ^^^ b)
  | .shl => .ok (a <<< count)
  | .shr =>
    if k.signed then .ok (a.toInt64 >>> count.toInt64).toUInt64
    else .ok (a >>> count)
  | op => .error (.unsupportedBinary op)

/-- A binary operation on integers or truth values, wrapping at the width of the kind. Shift counts
are taken modulo the width. -/
def binary (op : Op) (k : Kind) (l r : Word) : Except Fault Word :=
  (binaryBits op k l.bits r.bits).map fun z => ofBits (k.norm z)

/-- A unary operation on integers or truth values. -/
def unary (op : Op) (k : Kind) (x : Word) : Except Fault Word :=
  match op with
  | .neg => .ok (ofBits (k.norm (0 - x.bits)))
  | .not => .ok (ofBits (if k = .bool then x.bits ^^^ 1 else k.norm (~~~x.bits)))
  | op => .error (.unsupportedUnary op)

/-- A condition on two elements of an ordered type. -/
def holds {α : Type} [DecidableEq α] [LT α] [LE α] [DecidableLT α] [DecidableLE α]
    (c : Cond) (a b : α) : Except Fault Bool :=
  match c with
  | .eq => .ok (a = b)
  | .ne => .ok (a ≠ b)
  | .lt => .ok (a < b)
  | .le => .ok (a ≤ b)
  | .gt => .ok (b < a)
  | .ge => .ok (b ≤ a)
  | .unknown s => .error (.unsupportedCond s)

/-- A condition on two words of one kind; pointers are compared by address. -/
def compare (c : Cond) (k : Kind) (l r : Word) : Except Fault Bool :=
  if k = .ptr then holds c l.rawAddr r.rawAddr
  else if k.signed then holds c l.bits.toInt64 r.bits.toInt64
  else holds c l.bits r.bits

/-- The word `x` of kind `source` as a word of kind `target`. A pointer becomes an integer by its address
and a truth value by being other than nil; an integer never becomes a pointer. -/
def convert (target source : Kind) (x : Word) : Except Fault Word :=
  if target = source then .ok x
  else if source = .ptr then
    if target = .bool then .ok (ofBool (x.rawAddr != 0))
    else .ok (ofBits (target.norm x.rawAddr))
  else if target = .ptr then .error .integerToPointer
  else if target = .bool then .ok (ofBool (x.bits != 0))
  else .ok (ofBits (target.norm x.bits))

/-- The pointer `p` advanced by `i` elements of `scale` bytes. -/
def ptrAdd (p i : Word) (scale : Int) : Word :=
  { p with bits := p.bits + i.bits * UInt64.ofInt scale }

/-- The signed distance from `r` to `l` in elements of `scale` bytes, rounded toward zero. -/
def ptrDiff (l r : Word) (scale : Int) : Word :=
  let d := (l.rawAddr - r.rawAddr).toInt64
  ofBits (if 1 < scale then (d / Int64.ofInt scale).toUInt64 else d.toUInt64)

/-- The text of a word with no base, or of its base and offset. -/
def text (w : Word) : String :=
  let offset := Text.hexMarked w.bits.toNat
  if w.base = 0 then offset else Text.hexMarked w.base.toNat ++ "+" ++ offset

end Word

end Codesmith
