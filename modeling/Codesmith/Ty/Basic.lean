import Codesmith.Word.Kind

/-!
# Types of described functions

Types are trees. The absent type `void` stands for the result of a function that returns nothing and
for the target of a pointer to something unknown. Only *scalar* types have values in registers: truth
values, integers of 8, 16, 32 or 64 bits, and pointers. Arrays and structs are reached through
pointers.
-/

namespace Codesmith

/-- A named part of a struct at a byte offset. -/
structure Field (α : Type) where
  name : String
  offset : Int
  ty : α
  deriving DecidableEq, Repr

/-- A type. -/
inductive Ty
  /-- No type at all. -/
  | void
  | bool
  | int (bits : Int) (signed : Bool)
  | ptr (elem : Ty)
  | array (elem : Ty) (length : Int)
  | struct (fields : List (Field Ty))
  | func (params : List Ty) (result : Ty)
  deriving Repr, Inhabited

/-- The types of the arguments and of the result of a function. -/
structure Signature where
  params : List Ty
  result : Ty
  deriving Inhabited, Repr

namespace Ty

/-- Signed integers of 64 bits, the type of offsets and distances. -/
def i64 : Ty := .int 64 true

/-- The kind of the words that hold values of a type; `invalid` if no word does. -/
def kind : Ty → Kind
  | bool => .bool
  | ptr _ => .ptr
  | int bits signed =>
    match Width.ofBits? bits with
    | some w => .int w signed
    | none => .invalid
  | _ => .invalid

/-- Whether values of the type fit one word. -/
def isScalar : Ty → Bool
  | bool | ptr _ => true
  | int bits _ => (Width.ofBits? bits).isSome
  | _ => false

/-- Whether the type is absent. -/
def isVoid : Ty → Bool
  | void => true
  | _ => false

/-- Whether the type is an integer type of any width. -/
def isInt : Ty → Bool
  | int _ _ => true
  | _ => false

/-- Whether the type is the type of truth values. -/
def isBool : Ty → Bool
  | bool => true
  | _ => false

/-- Whether the type is a pointer type. -/
def isPtr : Ty → Bool
  | ptr _ => true
  | _ => false

mutual

/-- Whether two types are the same tree. -/
def equal : Ty → Ty → Bool
  | void, void => true
  | bool, bool => true
  | int m s, int n t => m == n && s == t
  | ptr a, ptr b => equal a b
  | array a m, array b n => m == n && equal a b
  | struct fs, struct gs => equalFields fs gs
  | func ps r, func qs t => equal r t && equalAll ps qs
  | _, _ => false

/-- Whether two lists of fields agree in names, offsets and types. -/
def equalFields : List (Field Ty) → List (Field Ty) → Bool
  | [], [] => true
  | ⟨m, i, a⟩ :: fs, ⟨n, j, b⟩ :: gs => m == n && i == j && equal a b && equalFields fs gs
  | _, _ => false

/-- Whether two lists of types agree. -/
def equalAll : List Ty → List Ty → Bool
  | [], [] => true
  | a :: as, b :: bs => equal a b && equalAll as bs
  | _, _ => false

end

/-- The bits of an integer type of so many bits. -/
def mask (bits : Int) : UInt64 :=
  if bits < 0 ∨ 64 ≤ bits then UInt64.ofNat ((1 <<< 64) - 1)
  else UInt64.ofNat ((1 <<< bits.toNat) - 1)

/-- The least value of an integer type, in two's complement. -/
def least (bits : Int) (signed : Bool) : Int :=
  if signed ∧ 1 ≤ bits ∧ bits ≤ 64 then -((1 <<< (bits.toNat - 1) : Nat) : Int) else 0

/-- The greatest value of an integer type. -/
def greatest (bits : Int) (signed : Bool) : UInt64 :=
  if signed then mask bits >>> 1 else mask bits

end Ty

/-- A signature as a function type. -/
def Signature.ty (s : Signature) : Ty :=
  .func s.params s.result

end Codesmith
