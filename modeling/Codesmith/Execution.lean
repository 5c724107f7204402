import Codesmith.Memory

/-!
# Running a machine

A machine is a step function on its states. A step leads to the next state, or ends the run with a
word, or ends it with a fault; the memory at the end counts in both cases. `iterate` takes at most a
given number of steps, so it is total, and a run that would go on is told apart from one that ended.
-/

namespace Codesmith

inductive Step (σ : Type)
  | next (state : σ)
  | done (result : Word) (memory : Memory)
  | fault (cause : Fault) (memory : Memory)
  deriving Repr

/-- How a run ended, if it did. -/
inductive Outcome (α : Type)
  | done (result : α) (memory : Memory)
  | fault (cause : Fault) (memory : Memory)
  | unfinished
  deriving DecidableEq, Repr

/-- The outcome with another result. -/
def Outcome.map {α β : Type} (f : α → β) : Outcome α → Outcome β
  | done result m => done (f result) m
  | fault cause m => fault cause m
  | unfinished => unfinished

/-- The outcome of at most so many steps. -/
def iterate {σ : Type} (step : σ → Step σ) : Nat → σ → Outcome Word
  | 0, _ => .unfinished
  | fuel + 1, s =>
    match step s with
    | .next s' => iterate step fuel s'
    | .done w m => .done w m
    | .fault f m => .fault f m

/-- The file of registers of a machine. -/
abbrev Registers := Array Word

/-- The number of a register; only some numbers are registers. -/
abbrev Reg := Int

/-- The registers with one of them replaced; a number that is no register is a fault. -/
def Registers.write (r : Registers) (d : Reg) (w : Word) : Except Fault Registers :=
  match d with
  | .ofNat n => if n < r.size then .ok (r.setIfInBounds n w) else .error (.indexOutOfRange d r.size)
  | .negSucc _ => .error (.indexOutOfRange d r.size)

/-- A computation of a word from registers and memory. -/
inductive Compute
  | imm (bits : UInt64)
  | copy (a : Reg)
  | binary (op : Op) (kind : Kind) (a b : Reg)
  | unary (op : Op) (kind : Kind) (a : Reg)
  | compare (cond : Cond) (kind : Kind) (a b : Reg)
  | convert (target source : Kind) (a : Reg)
  /-- The pointer `a` advanced by `b` elements of `scale` bytes. -/
  | ptrAdd (scale : Int) (a b : Reg)
  /-- The distance from `b` to `a` in elements of `scale` bytes. -/
  | ptrDiff (scale : Int) (a b : Reg)
  | load (kind : Kind) (a : Reg)
  deriving DecidableEq, Repr

namespace Compute

def reads : Compute → List Reg
  | imm _ => []
  | copy a => [a]
  | binary _ _ a b => [a, b]
  | unary _ _ a => [a]
  | compare _ _ a b => [a, b]
  | convert _ _ a => [a]
  | ptrAdd _ a b => [a, b]
  | ptrDiff _ a b => [a, b]
  | load _ a => [a]

def eval (r : Registers) (m : Memory) : Compute → Except Fault Word
  | imm x => .ok (Word.ofBits x)
  | copy a => fetch r a
  | binary op k a b => do Word.binary op k (← fetch r a) (← fetch r b)
  | unary op k a => do Word.unary op k (← fetch r a)
  | compare c k a b => do
    return Word.ofBool (← Word.compare c k (← fetch r a) (← fetch r b))
  | convert target source a => do Word.convert target source (← fetch r a)
  | ptrAdd scale a b => do return Word.ptrAdd (← fetch r a) (← fetch r b) scale
  | ptrDiff scale a b => do return Word.ptrDiff (← fetch r a) (← fetch r b) scale
  | load k a => do m.load k (← fetch r a)

end Compute

/-- The memory after the word in register `x` is stored where register `p` points; a fault comes with the
memory as it was. -/
def storeFrom (r : Registers) (m : Memory) (k : Kind) (p x : Reg) : Except (Fault × Memory) Memory :=
  match fetch r p, fetch r x with
  | .error f, _ => .error (f, m)
  | _, .error f => .error (f, m)
  | .ok a, .ok w =>
    match m.storeFault? k a with
    | some f => .error (f, m)
    | none => .ok (m.put k a w)

end Codesmith
