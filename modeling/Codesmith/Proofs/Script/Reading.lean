import Codesmith.Proofs.Direct.Operand
import Codesmith.Script.Stmt

/-!
# Scripts as structured programs

A script is read as a structured program, and nothing is described for it. Every value that a statement
makes is a variable of its own; variables are numbered in the order in which they are made, and the
arguments come first. The parts of a construct are read in the order in which they are described, so a loop
is read with its body before its step.

The reading is total. Where a description would be rejected it yields some program, of which nothing is
claimed.
-/

namespace Codesmith.Script

open Describe (FuncId Value Operand conditionCell conversion fieldOffset fieldsOf)
open Direct (Node Source)

/-! ## Scopes -/

/-- What is known at a point of a script. -/
structure Scope where
  /-- The function that the script describes. -/
  id : FuncId
  sig : Signature
  names : List (Name × Value)
  /-- The types of the variables that were made so far. -/
  types : List Ty

namespace Scope

/-- The beginning of a script. -/
def start (id : FuncId) (sig : Signature) : Scope :=
  ⟨id, sig, [], sig.params⟩

/-- The number of the variable that is made next. -/
def size (sc : Scope) : Nat :=
  sc.types.length

def find (sc : Scope) (n : Name) : Option Value :=
  if n = "nil" then none else sc.names.lookup n

/-- The value with a name, or one without a variable. -/
def value (sc : Scope) (n : Name) : Value :=
  (sc.find n).getD ⟨sc.id, .void, none⟩

def operand (sc : Scope) : Term → Operand
  | .name n => .value (sc.find n)
  | .const x => .const x

def bind (sc : Scope) (n : Name) (v : Value) : Scope :=
  { sc with names := (n, v) :: sc.names.filter fun p => p.1 != n }

def bindAll (stem : Name) : Nat → List Value → Scope → Scope
  | _, [], sc => sc
  | i, v :: vs, sc => bindAll stem (i + 1) vs (sc.bind (stem ++ toString i) v)

/-- Make variables of these types. -/
def grow (sc : Scope) (types : List Ty) : Scope :=
  { sc with types := sc.types ++ types }

/-- The variable that was made last. -/
def newest (sc : Scope) : Value :=
  ⟨sc.id, sc.types.getLastD .void, some (sc.size - 1)⟩

def argument (sc : Scope) (n : Int) : Value :=
  ⟨sc.id, (fetch? sc.sig.params.toArray n).getD .void, some n.toNat⟩

def arguments (sc : Scope) : List Value :=
  sc.sig.params.zipIdx.map fun p => ⟨sc.id, p.1, some p.2⟩

/-- Bind a name to what statements make. -/
def yield (sc : Scope) (n : Name) (made : List Node × List Ty) : List Node × Scope :=
  (made.1, (sc.grow made.2).bind n (sc.grow made.2).newest)

end Scope

/-! ## Operations -/

def pointee : Ty → Ty
  | .ptr t => t
  | _ => .void

/-- What an array is made of. -/
def elementOf : Ty → Ty
  | .array t _ => t
  | _ => .void

/-- The distance of elements in memory. -/
def stride (t : Ty) : Int :=
  t.size.toOption.getD 0

/-- The statements that an operation stands for, and the types of the variables that they make; `out` is
the first of the variables. -/
def BinaryOp.read (op : BinaryOp) (v : Value) (x : Operand) (out : Nat) : List Node × List Ty :=
  match op with
  | .arith op => ([.make out (.binary op v.ty.kind 0 1) v.cell (x.source v.ty)], [v.ty])
  | .compare c => ([.make out (.compare c v.ty.kind 0 1) v.cell (x.source v.ty)], [.bool])
  | .index => ([.make out (.ptrAdd (stride (pointee v.ty)) 0 1) v.cell (x.source .i64)], [v.ty])
  | .offset => ([.make out (.ptrAdd 1 0 1) v.cell (x.source .i64)], [v.ty])
  | .element =>
    let t := elementOf (pointee v.ty)
    ([.make out (.ptrAdd (stride t) 0 1) v.cell (x.source .i64)], [.ptr t])
  | .elem =>
    let t := pointee v.ty
    ([.make out (.ptrAdd (stride t) 0 1) v.cell (x.source .i64),
      .make (out + 1) (.load t.kind 0) out (.cell out)], [v.ty, t])

@[inherit_doc BinaryOp.read]
def UnaryOp.read (op : UnaryOp) (v : Value) (out : Nat) : List Node × List Ty :=
  match op with
  | .arith op => ([.make out (.unary op v.ty.kind 0) v.cell (.cell v.cell)], [v.ty])
  | .copy => ([.take out (.cell v.cell)], [v.ty])
  | .load => ([.make out (.load (pointee v.ty).kind 0) v.cell (.cell v.cell)], [pointee v.ty])

def readField (v : Value) (name : String) (out : Nat) : List Node × List Ty :=
  let f := ((fieldsOf (pointee v.ty)).find? fun f => f.name == name).getD ⟨name, 0, .void⟩
  ([.make out (.ptrAdd 1 0 1) v.cell ((fieldOffset f).source .i64)], [.ptr f.ty])

/-! ## Statements -/

/-- The count of a loop: a constant is kept in a variable. -/
def Scope.count (sc : Scope) (n : Term) : List Node × Value × Scope :=
  match n with
  | .name n => ([], sc.value n, sc)
  | .const x =>
    let sc' := sc.grow [.i64]
    ([.take sc.size ((Operand.const x).source .i64)], sc'.newest, sc')

/-- A loop over a variable of a type. The variable starts with a word, is compared with a bound before each
round, and is advanced by one after it. -/
def Scope.cursorLoop (sc : Scope) (ty : Ty) (first : Source) (c : Cond) (bound : Operand) (next : BinaryOp)
    (body : Value → Scope → List Node × Scope) : List Node × Scope :=
  let sc₁ := sc.grow [ty]
  let i := sc₁.newest
  let (ts, made) := (BinaryOp.compare c).read i bound sc₁.size
  let sc₂ := sc₁.grow made
  let (bs, sc₃) := body i sc₂
  let (ns, made) := next.read i (.ofInt 1) sc₃.size
  let sc₄ := sc₃.grow made
  ([.take sc.size first,
    .loop ts (some sc₂.newest.cell) true (ns ++ [.assign i.cell (.cell sc₄.newest.cell)]) bs], sc₄)

/-- Whether a part is given. -/
def Body.given : Body → Bool
  | .missing => false
  | .stmts _ => true

mutual

def Stmt.read : Stmt → Scope → List Node × Scope
  | .arg bind n, sc => ([], sc.bind bind (sc.argument n))
  | .args stem, sc => ([], sc.bindAll stem 0 sc.arguments)
  | .const bind ty x, sc => sc.yield bind ([.take sc.size ((sc.operand x).source ty)], [ty])
  | .var bind v, sc => sc.yield bind (UnaryOp.copy.read (sc.value v) sc.size)
  | .binary op bind v x, sc => sc.yield bind (op.read (sc.value v) (sc.operand x) sc.size)
  | .unary op bind v, sc => sc.yield bind (op.read (sc.value v) sc.size)
  | .convert bind v ty, sc =>
    sc.yield bind ([conversion sc.size ty (sc.value v).ty (sc.value v).cell], [ty])
  | .field bind v field, sc => sc.yield bind (readField (sc.value v) field sc.size)
  | .diff bind v q, sc =>
    let scale := stride (pointee (sc.value v).ty)
    sc.yield bind ([.make sc.size (.ptrDiff scale 0 1) (sc.value v).cell (.cell (sc.value q).cell)], [.i64])
  | .store v x, sc =>
    let t := pointee (sc.value v).ty
    ([.store t.kind (sc.value v).cell ((sc.operand x).source t)], sc)
  | .assign v x, sc => ([.assign (sc.value v).cell ((sc.operand x).source (sc.value v).ty)], sc)
  | .ret x, sc => ([.ret ((sc.operand x).result sc.sig.result)], sc)
  | .leaveLoop, sc => ([.leave], sc)
  | .nextRound, sc => ([.next], sc)
  | .ifThen c yes, sc =>
    let (ys, sc₁) := yes.read sc
    ([.choose (conditionCell (sc.find c)) ys []], sc₁)
  | .ifElse c yes no, sc =>
    let (ys, sc₁) := yes.read sc
    let (ns, sc₂) := no.read sc₁
    ([.choose (conditionCell (sc.find c)) ys ns], sc₂)
  | .whileLoop test body, sc =>
    let (ts, c, sc₁) := test.read sc
    let (bs, sc₂) := body.read sc₁
    ([.loop ts c false [] bs], sc₂)
  | .doWhile body test, sc =>
    let (bs, sc₁) := body.read sc
    let (ts, c, sc₂) := test.read sc₁
    ([.doLoop bs ts c], sc₂)
  | .forLoop init test step body, sc =>
    let (is, sc₁) := init.read sc
    let (ts, c, sc₂) := test.read sc₁
    let (bs, sc₃) := body.read sc₂
    let (ns, sc₄) := step.read sc₃
    (is ++ [.loop ts c step.given ns bs], sc₄)
  | .forN n bind body, sc =>
    let (cs, count, sc₁) := sc.count n
    let (ns, sc₂) := sc₁.cursorLoop count.ty ((Operand.ofInt 0).source count.ty) .lt (.value count) (.arith .add)
      fun i sc => body.read (sc.bind bind i)
    (cs ++ ns, sc₂)
  | .forRange first last bind body, sc =>
    sc.cursorLoop (sc.value first).ty (.cell (sc.value first).cell) .ne (.value (sc.find last)) .index
      fun p sc =>
        let (ls, made) := UnaryOp.load.read p sc.size
        let sc₁ := sc.grow made
        let (bs, sc₂) := body.read (sc₁.bind bind sc₁.newest)
        (ls ++ bs, sc₂)
  | .forRangePtr first last bind body, sc =>
    sc.cursorLoop (sc.value first).ty (.cell (sc.value first).cell) .ne (.value (sc.find last)) .index
      fun p sc => body.read (sc.bind bind p)
  | .finalize, sc => ([], sc)
  | .foreign .., sc => ([], sc)
  | .fault _, sc => ([], sc)

/-- Read statements in order. -/
def readAll : List Stmt → Scope → List Node × Scope
  | [], sc => ([], sc)
  | s :: ss, sc =>
    let (ns, sc₁) := s.read sc
    let (ms, sc₂) := readAll ss sc₁
    (ns ++ ms, sc₂)

def Body.read : Body → Scope → List Node × Scope
  | .missing, sc => ([], sc)
  | .stmts ss, sc => readAll ss sc

/-- Read a condition; it holds if the variable that is found does. -/
def Test.read : Test → Scope → List Node × Option Nat × Scope
  | .missing, sc => ([], none, sc)
  | .stmts ss v, sc =>
    let (ns, sc₁) := readAll ss sc
    (ns, some (conditionCell (sc₁.find v)), sc₁)

end

/-! ## Which scripts are read -/

mutual

/-- A statement that describes: it does not finish the function or act on another one, and its operations
have names. -/
def Stmt.plain : Stmt → Bool
  | .binary op .. => op ∈ BinaryOp.all
  | .unary op .. => op ∈ [.arith .neg, .arith .not, .copy, .load]
  | .ifThen _ yes => yes.plain
  | .ifElse _ yes no => yes.plain && no.plain
  | .whileLoop test body => test.plain && body.plain
  | .doWhile body test => body.plain && test.plain
  | .forLoop init test step body => init.plain && test.plain && step.plain && body.plain
  | .forN _ _ body => body.plain
  | .forRange _ _ _ body => body.plain
  | .forRangePtr _ _ _ body => body.plain
  | .finalize => false
  | .foreign .. => false
  | .fault _ => false
  | _ => true

/-- Statements that describe. -/
def plainAll : List Stmt → Bool
  | [] => true
  | s :: ss => s.plain && plainAll ss

@[inherit_doc Stmt.plain]
def Body.plain : Body → Bool
  | .missing => true
  | .stmts ss => plainAll ss

@[inherit_doc Stmt.plain]
def Test.plain : Test → Bool
  | .missing => true
  | .stmts ss _ => plainAll ss

end

end Codesmith.Script
