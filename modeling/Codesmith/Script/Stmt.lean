import Codesmith.Host.Value
import Codesmith.Ty.Basic

/-!
# Scripts

A script is a description as data: a list of statements that name the values they make and use. A name
may be bound again; a name that is not bound stands for no value.
-/

namespace Codesmith.Script

open Host

abbrev Name := String

/-- A name or a constant. -/
inductive Term
  | name (n : Name)
  | const (x : HostValue)
  deriving Repr

/-- An operation on a value and a term. -/
inductive BinaryOp
  | arith (op : Op)
  | compare (c : Cond)
  | index
  | offset
  | element
  | elem
  deriving DecidableEq, Repr

/-- An operation on a value. -/
inductive UnaryOp
  | arith (op : Op)
  | copy
  | load
  deriving DecidableEq, Repr

mutual

/-- A statement. -/
inductive Stmt
  | arg (bind : Name) (n : Int)
  /-- Bind all arguments, to names that begin alike. -/
  | args (stem : Name)
  | const (bind : Name) (ty : Ty) (x : Term)
  | var (bind v : Name)
  | binary (op : BinaryOp) (bind v : Name) (x : Term)
  | unary (op : UnaryOp) (bind v : Name)
  | convert (bind v : Name) (ty : Ty)
  | field (bind v : Name) (field : String)
  | diff (bind v q : Name)
  | store (v : Name) (x : Term)
  | assign (v : Name) (x : Term)
  | ret (x : Term)
  | leaveLoop
  | nextRound
  | ifThen (cond : Name) (yes : Body)
  | ifElse (cond : Name) (yes no : Body)
  | whileLoop (test : Test) (body : Body)
  | doWhile (body : Body) (test : Test)
  | forLoop (init : Body) (test : Test) (step body : Body)
  | forN (n : Term) (bind : Name) (body : Body)
  | forRange (first last bind : Name) (body : Body)
  | forRangePtr (first last bind : Name) (body : Body)
  | finalize
  /-- Bind the argument of another function, which takes a value of the type. -/
  | foreign (bind : Name) (ty : Ty)
  /-- A statement whose parts cannot be made. -/
  | fault (cause : Fault)

/-- A part of a construct, which may be missing. -/
inductive Body
  | missing
  | stmts (ss : List Stmt)

/-- A condition of a loop, which may be missing: statements and the name of the value they make. -/
inductive Test
  | missing
  | stmts (ss : List Stmt) (v : Name)

end

def BinaryOp.name : BinaryOp → String
  | arith op => op.text
  | compare .eq => "eq"
  | compare .ne => "ne"
  | compare .lt => "lt"
  | compare .le => "le"
  | compare .gt => "gt"
  | compare .ge => "ge"
  | compare (.unknown text) => text
  | index => "index"
  | offset => "offset"
  | element => "at"
  | elem => "elem"

/-- All operations on a value and a term. -/
def BinaryOp.all : List BinaryOp :=
  [.arith .add, .arith .sub, .arith .mul, .arith .div, .arith .rem, .arith .and, .arith .or,
    .arith .xor, .arith .shl, .arith .shr, .compare .eq, .compare .ne, .compare .lt, .compare .le,
    .compare .gt, .compare .ge, .index, .offset, .element, .elem]

def BinaryOp.ofName? (name : String) : Option BinaryOp :=
  BinaryOp.all.find? fun op => op.name == name

def UnaryOp.name : UnaryOp → String
  | arith op => op.text
  | copy => "copy"
  | load => "load"

def UnaryOp.ofName? (name : String) : Option UnaryOp :=
  [.arith .neg, .arith .not, .copy, .load].find? fun op => op.name == name

/-- The name of a statement, by which positions refer to it. -/
def Stmt.name : Stmt → String
  | .arg .. => "arg"
  | .args _ => "args"
  | .const .. => "const"
  | .var .. => "var"
  | .binary op .. => op.name
  | .unary op .. => op.name
  | .convert .. => "convert"
  | .field .. => "field"
  | .diff .. => "diff"
  | .store .. => "store"
  | .assign .. => "assign"
  | .ret _ => "return"
  | .leaveLoop => "break"
  | .nextRound => "continue"
  | .ifThen .. => "if"
  | .ifElse .. => "ifelse"
  | .whileLoop .. => "while"
  | .doWhile .. => "dowhile"
  | .forLoop .. => "for"
  | .forN .. => "forn"
  | .forRange .. => "forrange"
  | .forRangePtr .. => "forrangeptr"
  | .finalize => "finalize"
  | .foreign .. => "foreign"
  | .fault _ => "fault"

end Codesmith.Script
