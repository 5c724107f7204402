/-!
# Compact wire encoding

Diagnostic data is written in a compact self-describing form. A *tag* opens every item: three bits
say what it is, and the rest is a number, short in the tag itself or in the one, two, four or eight
bytes after it, most significant byte first.
-/

namespace Codesmith.Wire

/-- What an item is. -/
inductive Major
  | int
  | negative
  | text
  | array
  | map
  deriving DecidableEq, Repr

namespace Major

/-- The three bits of an item. -/
def code : Major → Nat
  | int => 0
  | negative => 1
  | text => 3
  | array => 4
  | map => 5

end Major

/-- The `count` low bytes of a number, most significant byte first. -/
def bigEndian : Nat → Nat → List UInt8
  | 0, _ => []
  | count + 1, v => bigEndian count (v / 256) ++ [UInt8.ofNat v]

/-- The tag of an item with its number. -/
def tag (major : Major) (v : Nat) : List UInt8 :=
  let head (low : Nat) : UInt8 := UInt8.ofNat (major.code * 32 + low)
  if v < 24 then [head v]
  else if v < 256 then head 24 :: bigEndian 1 v
  else if v < 65536 then head 25 :: bigEndian 2 v
  else if v < 4294967296 then head 26 :: bigEndian 4 v
  else head 27 :: bigEndian 8 v

/-- A number. A negative number `x` is written as `1 - x`. -/
def int (x : Int) : List UInt8 :=
  if 0 ≤ x then tag .int x.toNat else tag .negative (1 - x).toNat

/-- A text by its length in bytes and its bytes. -/
def text (s : String) : List UInt8 :=
  tag .text s.utf8ByteSize ++ s.toUTF8.toList

def absent : List UInt8 := [0xf6]

/-- An array whose length is not told in advance: it is opened, and closed after its last item. -/
def openArray (items : List (List UInt8)) : List UInt8 :=
  0x9f :: items.flatten ++ [0xff]

/-- A map from texts to numbers. -/
def intMap (entries : List (String × Int)) : List UInt8 :=
  tag .map entries.length ++ entries.flatMap fun e => text e.1 ++ int e.2

end Codesmith.Wire
