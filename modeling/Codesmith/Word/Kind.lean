/-!
# Kinds of machine words

A word carries no type. Each operation is told the *kind* of its operands: how many low bits of a
word count, and whether they are read as a signed number. Kinds also come as numeric codes; a code
that names no kind is kept, so that it can be reported.
-/

namespace Codesmith

/-- The widths of integers in bits. -/
inductive Width
  | w8
  | w16
  | w32
  | w64
  deriving DecidableEq, Repr

namespace Width

def bits : Width → Nat
  | w8 => 8
  | w16 => 16
  | w32 => 32
  | w64 => 64

def ofBits? : Int → Option Width
  | 8 => some w8
  | 16 => some w16
  | 32 => some w32
  | 64 => some w64
  | _ => none

def index : Width → Nat
  | w8 => 0
  | w16 => 1
  | w32 => 2
  | w64 => 3

end Width

/-- How an operation reads and writes a word. -/
inductive Kind
  /-- No kind; operations treat the word as 64 unsigned bits. -/
  | invalid
  | bool
  | int (width : Width) (signed : Bool)
  | ptr
  /-- A code that names no kind. -/
  | unknown (code : UInt8)
  deriving DecidableEq, Repr

namespace Kind

/-- Whether words of the kind are read as signed numbers. -/
def signed : Kind → Bool
  | int _ s => s
  | _ => false

/-- The number of low bits that count. -/
def bits : Kind → Nat
  | bool => 1
  | int w _ => w.bits
  | _ => 64

/-- The number of bytes a value takes in memory. -/
def size : Kind → Nat
  | bool => 1
  | k => k.bits / 8

/-- The integer kinds are those whose words denote numbers of a fixed width. -/
def isInt : Kind → Bool
  | int _ _ => true
  | _ => false

/-- The name that listings and messages use. -/
def text : Kind → String
  | invalid => "invalid"
  | bool => "bool"
  | int w true => "i" ++ toString w.bits
  | int w false => "u" ++ toString w.bits
  | ptr => "ptr"
  | unknown code => "kind(" ++ toString code.toNat ++ ")"

def code : Kind → UInt8
  | invalid => 0
  | bool => 1
  | int w true => 2 + w.index.toUInt8
  | int w false => 6 + w.index.toUInt8
  | ptr => 10
  | unknown code => code

def ofCode : UInt8 → Kind
  | 0 => invalid
  | 1 => bool
  | 2 => int .w8 true
  | 3 => int .w16 true
  | 4 => int .w32 true
  | 5 => int .w64 true
  | 6 => int .w8 false
  | 7 => int .w16 false
  | 8 => int .w32 false
  | 9 => int .w64 false
  | 10 => ptr
  | code => unknown code

def named : List Kind :=
  [invalid, bool, int .w8 true, int .w16 true, int .w32 true, int .w64 true,
    int .w8 false, int .w16 false, int .w32 false, int .w64 false, ptr]

def ofName? (name : String) : Option Kind :=
  named.find? fun k => k.text == name

end Kind

end Codesmith
