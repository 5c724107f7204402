import Codesmith.Word.Kind

/-!
# Types of the calling program

Generated code is called by a host program, whose values have types of their own. Only their texts,
their sizes and their classes matter here.
-/

namespace Codesmith.Host

inductive HostType
  | bool
  | text
  /-- Integers; without a width they are as wide as a machine word. -/
  | int (width : Option Width) (signed : Bool)
  /-- Unsigned integers that can hold an address. -/
  | address
  | float (width : Width)
  /-- Pointers to values of a type. -/
  | pointer (elem : HostType)
  /-- Pointers to anything. -/
  | anyPointer
  | slice (elem : HostType)
  | array (length : Nat) (elem : HostType)
  /-- Types of any other class, such as structures, tables and functions. -/
  | other (name : String) (size : Nat)
  deriving DecidableEq, Repr, Inhabited

namespace HostType

def name : HostType → String
  | bool => "bool"
  | text => "string"
  | int none true => "int"
  | int none false => "uint"
  | int (some w) true => "int" ++ toString w.bits
  | int (some w) false => "uint" ++ toString w.bits
  | address => "uintptr"
  | float w => "float" ++ toString w.bits
  | pointer elem => "*" ++ elem.name
  | anyPointer => "unsafe.Pointer"
  | slice elem => "[]" ++ elem.name
  | array n elem => "[" ++ toString n ++ "]" ++ elem.name
  | other name _ => name

/-- The size of a value in bytes. -/
def size : HostType → Nat
  | bool => 1
  | text => 16
  | int none _ => 8
  | int (some w) _ => w.bits / 8
  | address => 8
  | float w => w.bits / 8
  | pointer _ => 8
  | anyPointer => 8
  | slice _ => 24
  | array n elem => n * elem.size
  | other _ size => size

/-- The types that need no other type to be named. -/
def plain : List HostType :=
  [bool, text, int none true, int (some .w8) true, int (some .w16) true, int (some .w32) true,
    int (some .w64) true, int none false, int (some .w8) false, int (some .w16) false,
    int (some .w32) false, int (some .w64) false, address, float .w32, float .w64, anyPointer]

/-- The type with a text, read in at most so many steps. -/
def readName : Nat → List Char → Option HostType
  | 0, _ => none
  | _ + 1, [] => none
  | fuel + 1, '*' :: cs => (readName fuel cs).map pointer
  | fuel + 1, '[' :: ']' :: cs => (readName fuel cs).map slice
  | fuel + 1, '[' :: cs =>
    match (String.ofList (cs.takeWhile Char.isDigit)).toNat?, cs.dropWhile Char.isDigit with
    | some n, ']' :: rest => (readName fuel rest).map (array n)
    | _, _ => none
  | _ + 1, cs => plain.find? fun t => t.name.toList == cs

def ofName? (s : String) : Option HostType :=
  readName (s.length + 1) s.toList

/-- Whether values of the type are signed integers. -/
def isSigned : HostType → Bool
  | int _ s => s
  | _ => false

/-- Whether values of the type are unsigned integers. -/
def isUnsigned : HostType → Bool
  | int _ s => !s
  | address => true
  | _ => false

def isSlice : HostType → Bool
  | slice _ => true
  | _ => false

end HostType

structure FuncType where
  params : List HostType
  results : List HostType
  /-- Whether the last parameter takes any number of values. -/
  variadic : Bool := false
  deriving DecidableEq, Repr

namespace FuncType

/-- The texts of the parameters; a variadic last one shows what its values are. -/
def paramNames : List HostType → Bool → List String
  | [], _ => []
  | [.slice elem], true => ["..." ++ elem.name]
  | t :: ts, variadic => t.name :: paramNames ts variadic

def name (f : FuncType) : String :=
  let head := "func(" ++ ", ".intercalate (paramNames f.params f.variadic) ++ ")"
  match f.results with
  | [] => head
  | [t] => head ++ " " ++ t.name
  | ts => head ++ " (" ++ ", ".intercalate (ts.map HostType.name) ++ ")"

end FuncType

end Codesmith.Host
