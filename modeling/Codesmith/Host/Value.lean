import Codesmith.Host.Type
import Codesmith.Memory
import Codesmith.Binary.Literal
import Codesmith.Binary.Shortest

/-!
# Values of the calling program

A value of the host program is a truth value, a text, a number, a pointer or a slice of memory, an array,
a value of another class, or nothing at all. Integers are kept as the numbers they are. Arrays are the
ones that variables start with; all other arrays are reached through pointers. Of values of other classes
only the text is kept.
-/

namespace Codesmith.Host

inductive HostValue
  /-- No value, of no type. -/
  | nothing
  | bool (b : Bool)
  | text (s : String)
  | int (type : HostType) (n : Int)
  | float (width : Width) (x : Binary)
  /-- A pointer; the address `0` is nil. -/
  | pointer (type : HostType) (address : UInt64)
  /-- So many elements from an address on; the address `0` is the slice that does not exist. -/
  | slice (elem : HostType) (address : UInt64) (length : Nat)
  /-- An array of which nothing was set. -/
  | array (length : Nat) (elem : HostType)
  | other (name : String) (size : Nat) (text : String)
  deriving DecidableEq, Repr, Inhabited

namespace HostValue

def type? : HostValue → Option HostType
  | nothing => none
  | bool _ => some .bool
  | text _ => some .text
  | int t _ => some t
  | float w _ => some (.float w)
  | pointer t _ => some t
  | slice t _ _ => some (.slice t)
  | array n t => some (.array n t)
  | other name size _ => some (.other name size)

def typeName (v : HostValue) : String :=
  (v.type?.map HostType.name).getD "<nil>"

/-- The number that a host integer type makes of 64 bits. -/
def intOfBits (t : HostType) (x : UInt64) : Int :=
  match t with
  | .int none true => x.toInt64.toInt
  | .int (some w) s => if s then ((Kind.int w true).norm x).toInt64.toInt else ((Kind.int w false).norm x).toNat
  | _ => x.toNat

/-- The integer of a host type that a number stands for; the bits that do not fit are lost. -/
def ofInt (t : HostType) (n : Int) : HostValue :=
  .int t (intOfBits t (UInt64.ofInt n))

/-- The number with a fraction that a text denotes. It is read with 64 bits before it is narrowed. -/
def ofFloatText (w : Width) (s : String) : HostValue :=
  .float w ((Binary.ofText .double s).narrow (.ofWidth w))

def bracketed (parts : List String) : String :=
  "[" ++ " ".intercalate parts ++ "]"

def addressText (a : UInt64) : String :=
  if a = 0 then "<nil>" else Text.hexMarked a.toNat

/-- The number that some bytes of memory hold; zero where there is no memory. -/
def numberAt (m : Memory) (a : UInt64) (size : Nat) : UInt64 :=
  ((m.bytes? a size).map ofBytes).getD 0

/-- The text whose bytes are in memory. -/
def stringAt (m : Memory) (a : UInt64) (length : Nat) : String :=
  let bytes := (m.bytes? a length).getD []
  (String.fromUTF8? ⟨bytes.toArray⟩).getD ""

/-- The text of the value of a type at an address. Texts and slices in memory are an address and a
length. -/
def textAt (m : Memory) : HostType → UInt64 → String
  | .bool, a => if numberAt m a 1 = 0 then "false" else "true"
  | .text, a => stringAt m (numberAt m a 8) (numberAt m (a + 8) 8).toNat
  | .float w, a => Binary.text (.ofWidth w) ((Binary.Format.ofWidth w).decode (numberAt m a (w.bits / 8)).toNat)
  | .pointer _, a => addressText (numberAt m a 8)
  | .anyPointer, a => addressText (numberAt m a 8)
  | .slice elem, a =>
    let start := numberAt m a 8
    bracketed ((List.range (numberAt m (a + 8) 8).toNat).map fun i =>
      textAt m elem (start + UInt64.ofNat (i * elem.size)))
  | .array n elem, a =>
    bracketed ((List.range n).map fun i => textAt m elem (a + UInt64.ofNat (i * elem.size)))
  | t, a => toString (intOfBits t (numberAt m a t.size))

def zeroText : HostType → String
  | .bool => "false"
  | .text => ""
  | .pointer _ | .anyPointer => "<nil>"
  | .slice _ => "[]"
  | .array n elem => bracketed (List.replicate n (zeroText elem))
  | _ => "0"

/-- The text of a pointer: what it points to if that is an array or a slice, and its address otherwise. -/
def pointerText (m : Memory) (t : HostType) (a : UInt64) : String :=
  match t with
  | .pointer (.array n elem) => if a = 0 then "<nil>" else "&" ++ textAt m (.array n elem) a
  | .pointer (.slice elem) => if a = 0 then "<nil>" else "&" ++ textAt m (.slice elem) a
  | _ => addressText a

/-- The text of a value; slices, and pointers to arrays, show what is in memory. -/
def shown (m : Memory) : HostValue → String
  | nothing => "<nil>"
  | bool b => if b then "true" else "false"
  | text s => s
  | int _ n => toString n
  | float w x => x.text (.ofWidth w)
  | pointer t a => pointerText m t a
  | slice elem a n =>
    bracketed ((List.range n).map fun i => textAt m elem (a + UInt64.ofNat (i * elem.size)))
  | array n elem => zeroText (.array n elem)
  | other _ _ s => s

def zero : HostType → HostValue
  | .bool => .bool false
  | .text => .text ""
  | .float w => .float w (.finite false 0 (Binary.Format.ofWidth w).leastExponent)
  | .slice elem => .slice elem 0 0
  | .array n elem => .array n elem
  | .pointer elem => .pointer (.pointer elem) 0
  | .anyPointer => .pointer .anyPointer 0
  | .other name size => .other name size ""
  | t => .int t 0

end HostValue

end Codesmith.Host
