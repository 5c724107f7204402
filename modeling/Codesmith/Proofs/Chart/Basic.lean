import Codesmith.Gen.Operation
import Codesmith.Proofs.Flow.Build

/-!
# Flow charts

A chart is what the calls to a generator describe, in no back end's terms: blocks with the values
they join, their lines and their exit, and for each value its type and the place where it is defined.
Charts run on values of unbounded number that are all zero in the beginning. `Chart.WellFormed` is
the rule that both back ends check, with dominance stated over trails.
-/

namespace Codesmith

/-! ## Computations on values -/

namespace Compute

variable {v : Ref → Word} {c : Compute}

/-- The word that a computation yields when every register has a value. -/
def value (v : Ref → Word) (m : Memory) : Compute → Except Fault Word
  | imm x => .ok (Word.ofBits x)
  | copy a => .ok (v a)
  | binary op k a b => Word.binary op k (v a) (v b)
  | unary op k a => Word.unary op k (v a)
  | compare c k a b => (Word.compare c k (v a) (v b)).map Word.ofBool
  | convert target source a => Word.convert target source (v a)
  | ptrAdd scale a b => .ok (Word.ptrAdd (v a) (v b) scale)
  | ptrDiff scale a b => .ok (Word.ptrDiff (v a) (v b) scale)
  | load k a => m.load k (v a)

/-- Registers that hold the values which a computation reads yield the same word. -/
theorem eval_eq_value {r : Registers} (m : Memory) (h : ∀ x ∈ c.reads, fetch r x = .ok (v x)) :
    c.eval r m = c.value v m := by
  cases c <;> simp only [reads, List.mem_cons, List.not_mem_nil, or_false, forall_eq_or_imp,
    forall_eq] at h <;> simp only [eval, value, h] <;> rfl

def rename (f : Ref → Ref) : Compute → Compute
  | imm x => imm x
  | copy a => copy (f a)
  | binary op k a b => binary op k (f a) (f b)
  | unary op k a => unary op k (f a)
  | compare c k a b => compare c k (f a) (f b)
  | convert target source a => convert target source (f a)
  | ptrAdd scale a b => ptrAdd scale (f a) (f b)
  | ptrDiff scale a b => ptrDiff scale (f a) (f b)
  | load k a => load k (f a)

theorem reads_rename (f : Ref → Ref) (c : Compute) : (c.rename f).reads = c.reads.map f := by
  cases c <;> rfl

theorem value_rename {f : Ref → Ref} {v' : Ref → Word} (m : Memory) (h : ∀ x ∈ c.reads, v' (f x) = v x) :
    (c.rename f).value v' m = c.value v m := by
  cases c <;> simp only [reads, List.mem_cons, List.not_mem_nil, or_false, forall_eq_or_imp,
    forall_eq] at h <;> simp only [rename, value, h]

end Compute

namespace Gen

/-! ## Charts -/

/-- A line of a block. -/
inductive Act
  | compute (out : Ref) (value : Compute)
  /-- Take over an argument. -/
  | arg (out : Ref) (n : Nat)
  | store (kind : Kind) (p x : Ref)

namespace Act

/-- The value that a line defines. -/
def out? : Act → Option Ref
  | compute out _ => some out
  | arg out _ => some out
  | store .. => none

/-- The values that a line reads. -/
def reads : Act → List Ref
  | compute _ c => c.reads
  | arg .. => []
  | store _ p x => [p, x]

/-- The values and the memory after a line. -/
def run (args : Array Word) (v : Ref → Word) (m : Memory) : Act → Except Fault ((Ref → Word) × Memory)
  | compute out c => (c.value v m).map fun w => (Function.update v out w, m)
  | arg out n => (fetch args n).map fun w => (Function.update v out w, m)
  | store k p x => (m.store k (v p) (v x)).map fun m' => (v, m')

end Act

/-- A block of a chart. -/
structure ChartBlock where
  /-- The values that join others at the head of the block. -/
  phis : List Ref := []
  code : List Act := []
  exit : Option Exit := none

/-- Where a value is defined: at a place of a block, or at its head. -/
structure Home where
  block : Label
  place : Option Nat

/-- What is known of a function while it is built. -/
structure Chart where
  sig : Signature
  /-- The number of blocks. -/
  size : Nat
  block : Label → ChartBlock
  /-- The block that is being built. -/
  current : Label
  home : Ref → Option Home
  ty : Ref → Ty
  /-- The values that a value joins. -/
  incoming : Ref → List EdgeValue

namespace Chart

/-- The blocks that follow a block. -/
def succs (c : Chart) (l : Label) : List Int :=
  match (c.block l).exit with
  | some e => e.targets
  | none => []

/-- The current block has no exit yet. -/
abbrev Unended (c : Chart) : Prop :=
  (c.block c.current).exit = none

/-- The number of lines of a block. -/
def length (c : Chart) (l : Label) : Nat :=
  (c.block l).code.length

/-! ## Runs -/

/-- The state of a run before a line of a block or before its exit. -/
structure State where
  block : Label
  place : Nat
  values : Ref → Word
  memory : Memory

/-- The value that joins others on the edge from a block to the block of the value, if there is one. -/
def carried? (c : Chart) (source : Label) (x : Ref) : Option Ref :=
  ((c.incoming x).find? fun e => e.source == (source : Int)).map EdgeValue.ref

/-- The values after all values at the head of a block have joined those that come from another. -/
def enter (c : Chart) (source target : Label) (v : Ref → Word) : Ref → Word := fun x =>
  if x ∈ (c.block target).phis then v ((c.carried? source x).getD x) else v x

/-- The state after control has gone on to a block. -/
def go (c : Chart) (s : State) (target : BlockId) : State :=
  ⟨target.toNat, 0, c.enter s.block target.toNat s.values, s.memory⟩

/-- The step at the end of a block. -/
def leave (c : Chart) (s : State) : Exit → Step State
  | .jump t => .next (c.go s t)
  | .branch x yes no => .next (c.go s (if (s.values x).isTrue then yes else no))
  | .ret none => .done Word.zero s.memory
  | .ret (some x) => .done (s.values x) s.memory

/-- One step: a line is executed, or a block is left. -/
def step (c : Chart) (args : Array Word) (s : State) : Step State :=
  match (c.block s.block).code[s.place]? with
  | some a =>
    match a.run args s.values s.memory with
    | .error f => .fault f s.memory
    | .ok (v, m) => .next ⟨s.block, s.place + 1, v, m⟩
  | none =>
    match (c.block s.block).exit with
    | some e => c.leave s e
    | none => .fault .invalidAddress s.memory

def start (m : Memory) : State :=
  ⟨Graph.entry, 0, fun _ => Word.zero, m⟩

/-! ## The rule -/

/-- The value is defined before place `i` of a block on every way to it. -/
def Available (c : Chart) (l : Label) (i : Nat) (x : Ref) : Prop :=
  ∃ h, c.home x = some h ∧ Graph.Reaches c.succs h.block ∧
    (h.block = l ∧ (∀ j, h.place = some j → j < i) ∨
      h.block ≠ l ∧ Graph.Dom c.succs h.block l)

/-- A value at the head of a block joins exactly one value from every predecessor of the block; what
comes from a reached block comes from a predecessor, has the type of the value and is available at the
end of that block. -/
structure Joins (c : Chart) (l : Label) (x : Ref) : Prop where
  one : ∀ p, Graph.Reaches c.succs p → Graph.Edge c.succs p l →
    (c.incoming x).countP (fun e => e.source == (p : Int)) = 1
  each : ∀ e ∈ c.incoming x, Graph.Reaches c.succs e.source.toNat →
    Graph.Edge c.succs e.source.toNat l ∧ c.ty e.ref = c.ty x ∧
      c.Available e.source.toNat (c.length e.source.toNat) e.ref

/-- Reached blocks end, values at their heads join others as they should, and what is read is
available. -/
structure WellFormed (c : Chart) : Prop where
  ended : ∀ l, Graph.Reaches c.succs l → (c.block l).exit ≠ none
  joins : ∀ l, Graph.Reaches c.succs l → ∀ x ∈ (c.block l).phis, c.Joins l x
  lines : ∀ l, Graph.Reaches c.succs l → ∀ i a, (c.block l).code[i]? = some a →
    ∀ x ∈ a.reads, c.Available l i x
  exits : ∀ l, Graph.Reaches c.succs l → ∀ e, (c.block l).exit = some e →
    ∀ x ∈ e.reads, c.Available l (c.length l) x

end Chart

end Gen

end Codesmith
