/-!
# Operations and conditions on words

The operation codes cover binary and unary operations alike; which of them an engine accepts in a
place is checked there. A condition is written as text, and text that is no condition is kept, so
that it can be reported.
-/

namespace Codesmith

/-- An operation on words. -/
inductive Op
  | invalid
  | add
  | sub
  | mul
  | div
  | rem
  | and
  | or
  | xor
  | shl
  | shr
  | neg
  | not
  /-- A code that names no operation. -/
  | unknown (code : UInt8)
  deriving DecidableEq, Repr

namespace Op

/-- The name that listings and messages use. -/
def text : Op → String
  | invalid => "invalid"
  | add => "add"
  | sub => "sub"
  | mul => "mul"
  | div => "div"
  | rem => "rem"
  | and => "and"
  | or => "or"
  | xor => "xor"
  | shl => "shl"
  | shr => "shr"
  | neg => "neg"
  | not => "not"
  | unknown code => "op(" ++ toString code.toNat ++ ")"

/-- Every operation that has a name, in the order of the numeric codes. -/
def named : List Op :=
  [invalid, add, sub, mul, div, rem, and, or, xor, shl, shr, neg, not]

def ofName? (name : String) : Option Op :=
  named.find? fun op => op.text == name

/-- The operation with a numeric code. -/
def ofCode (code : UInt8) : Op :=
  named[code.toNat]?.getD (unknown code)

/-- The operations of two operands. -/
def isBinary : Op → Bool
  | add | sub | mul | div | rem | and | or | xor | shl | shr => true
  | _ => false

/-- The operations of one operand. -/
def isUnary : Op → Bool
  | neg | not => true
  | _ => false

/-- The binary operations that make sense for truth values. -/
def isLogical : Op → Bool
  | and | or | xor => true
  | _ => false

end Op

/-- A condition on two words of one kind. -/
inductive Cond
  | eq
  | ne
  | lt
  | le
  | gt
  | ge
  /-- Text that is no condition. -/
  | unknown (text : String)
  deriving DecidableEq, Repr

namespace Cond

def text : Cond → String
  | eq => "=="
  | ne => "!="
  | lt => "<"
  | le => "<="
  | gt => ">"
  | ge => ">="
  | unknown s => s

def ofText (s : String) : Cond :=
  match [eq, ne, lt, le, gt, ge].find? fun c => c.text == s with
  | some c => c
  | none => unknown s

/-- Whether the text is a condition. -/
def valid : Cond → Bool
  | unknown _ => false
  | _ => true

/-- The conditions that need no order. -/
def isEquality : Cond → Bool
  | eq | ne => true
  | _ => false

end Cond

end Codesmith
