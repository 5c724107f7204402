import Codesmith.Proofs.Chart.Basic

/-!
# Direct interpretation

A described function read as a structured program. Its statements compute on variables that hold a word
each; control enters and leaves constructs as they are nested, and there are neither blocks nor values
of a generator. The interpreter gives every loop the same number of rounds, so it is total; a program
yields an outcome if some number of rounds is enough.
-/

namespace Codesmith.Direct

/-- What every variable holds. -/
abbrev Cells := Nat → Word

/-- Where a word comes from. -/
inductive Source
  | cell (v : Nat)
  | word (bits : UInt64)
  deriving DecidableEq, Repr

def Source.value (cells : Cells) : Source → Word
  | cell v => cells v
  | word bits => .ofBits bits

/-- Two registers, which hold the operands of a computation. -/
def pair {α : Type} (a b : α) (r : Reg) : α :=
  if r = 0 then a else b

/-- A statement of a structured program. -/
inductive Node
  /-- Make a variable that holds a word. -/
  | take (out : Nat) (x : Source)
  /-- Make a variable that holds the result of a computation, which finds its operands in the registers
  0 and 1. -/
  | make (out : Nat) (c : Compute) (v : Nat) (x : Source)
  | assign (v : Nat) (x : Source)
  | store (kind : Kind) (p : Nat) (x : Source)
  | choose (c : Nat) (yes no : List Node)
  /-- Rounds that start with a test and go from the body through the step to the next. Without a
  condition the test always passes; whether there is a step matters, even if it does nothing. -/
  | loop (test : List Node) (c : Option Nat) (stepped : Bool) (step body : List Node)
  /-- Rounds that end with a test. -/
  | doLoop (body test : List Node) (c : Option Nat)
  | leave
  | next
  | ret (x : Option Source)

/-- How control goes on. -/
inductive Way
  | on
  /-- Out of the innermost loop. -/
  | leave
  /-- To the next round of the innermost loop. -/
  | next
  deriving DecidableEq, Repr

/-- What came of a statement. -/
inductive Result
  | go (way : Way) (cells : Cells) (m : Memory)
  | ended (o : Outcome Word)

/-- What a part of a program does; nothing if its loops are not given enough rounds. -/
abbrev Part := Cells → Memory → Option Result

/-- What came of a round of a loop. -/
inductive Round
  | again (cells : Cells) (m : Memory)
  | over (r : Result)

/-- So many rounds of a loop at most. -/
def rounds (round : Cells → Memory → Option Round) : Nat → Part
  | 0, _, _ => none
  | n + 1, cells, m => do
    match ← round cells m with
    | .again cells m => rounds round n cells m
    | .over r => return r

/-- Whether the condition of a loop holds. -/
def holds (c : Option Nat) (cells : Cells) : Bool :=
  match c with
  | none => true
  | some v => (cells v).isTrue

/-- Go on with a part where control goes on. -/
def Result.andThen (r : Result) (k : Part) : Option Result :=
  match r with
  | go .on cells m => k cells m
  | r => some r

/-- The last part of a round, after which the next one comes. -/
def lastPart (p : Part) (cells : Cells) (m : Memory) : Option Round := do
  match ← p cells m with
  | .go .on cells m => return .again cells m
  | r => return .over r

def loopRound (test : Part) (c : Option Nat) (step body : Part) (cells : Cells) (m : Memory) :
    Option Round := do
  match ← test cells m with
  | .go .on cells m =>
    if holds c cells then
      match ← body cells m with
      | .go .leave cells m => return .over (.go .on cells m)
      | .go _ cells m => lastPart step cells m
      | .ended o => return .over (.ended o)
    else return .over (.go .on cells m)
  | r => return .over r

def doRound (body test : Part) (c : Option Nat) (cells : Cells) (m : Memory) : Option Round := do
  match ← body cells m with
  | .go .leave cells m => return .over (.go .on cells m)
  | .go _ cells m =>
    match ← test cells m with
    | .go .on cells m => return if holds c cells then .again cells m else .over (.go .on cells m)
    | r => return .over r
  | .ended o => return .over (.ended o)

mutual

def Node.exec (fuel : Nat) : Node → Part
  | .take out x, cells, m => some (.go .on (Function.update cells out (x.value cells)) m)
  | .make out c v x, cells, m =>
    match c.value (pair (cells v) (x.value cells)) m with
    | .ok w => some (.go .on (Function.update cells out w) m)
    | .error f => some (.ended (.fault f m))
  | .assign v x, cells, m => some (.go .on (Function.update cells v (x.value cells)) m)
  | .store k p x, cells, m =>
    match m.store k (cells p) (x.value cells) with
    | .ok m' => some (.go .on cells m')
    | .error f => some (.ended (.fault f m))
  | .choose c yes no, cells, m =>
    if (cells c).isTrue then execAll fuel yes cells m else execAll fuel no cells m
  | .loop test c _ step body, cells, m =>
    rounds (loopRound (execAll fuel test) c (execAll fuel step) (execAll fuel body)) fuel cells m
  | .doLoop body test c, cells, m =>
    rounds (doRound (execAll fuel body) (execAll fuel test) c) fuel cells m
  | .leave, cells, m => some (.go .leave cells m)
  | .next, cells, m => some (.go .next cells m)
  | .ret x, cells, m => some (.ended (.done ((x.map (Source.value cells)).getD .zero) m))

/-- Execute statements in order. -/
def execAll (fuel : Nat) : List Node → Part
  | [], cells, m => some (.go .on cells m)
  | n :: ns, cells, m => (n.exec fuel cells m).bind fun r => r.andThen (execAll fuel ns)

end

/-- The outcome of a program; the end of the program returns nothing. -/
def run (fuel : Nat) (p : List Node) (args : Array Word) (m : Memory) : Outcome Word :=
  match execAll fuel p (fun v => args.getD v .zero) m with
  | none => .unfinished
  | some (.go _ _ m) => .done .zero m
  | some (.ended o) => o

/-- A program with these arguments and this memory ends with an outcome. -/
def Yields (p : List Node) (args : Array Word) (m : Memory) (o : Outcome Word) : Prop :=
  o ≠ .unfinished ∧ ∃ fuel, run fuel p args m = o

/-! ## Variables -/

mutual

/-- The variables that a statement makes. -/
def Node.made : Node → List Nat
  | .take out _ => [out]
  | .make out _ _ _ => [out]
  | .choose _ yes no => madeAll yes ++ madeAll no
  | .loop test _ _ step body => madeAll test ++ madeAll step ++ madeAll body
  | .doLoop body test _ => madeAll body ++ madeAll test
  | _ => []

/-- The variables that statements make. -/
def madeAll : List Node → List Nat
  | [] => []
  | n :: ns => n.made ++ madeAll ns

end

mutual

/-- The variables that a statement assigns to. -/
def Node.assigned : Node → List Nat
  | .assign v _ => [v]
  | .choose _ yes no => assignedAll yes ++ assignedAll no
  | .loop test _ _ step body => assignedAll test ++ assignedAll step ++ assignedAll body
  | .doLoop body test _ => assignedAll body ++ assignedAll test
  | _ => []

/-- The variables that statements assign to. -/
def assignedAll : List Node → List Nat
  | [] => []
  | n :: ns => n.assigned ++ assignedAll ns

end

mutual

/-- Whether a statement may go on to the next round of the loop around it. -/
def Node.continues : Node → Bool
  | .next => true
  | .choose _ yes no => continuesAny yes || continuesAny no
  | .loop test _ _ step _ => continuesAny test || continuesAny step
  | .doLoop _ test _ => continuesAny test
  | _ => false

/-- Whether one of the statements may go on to the next round of the loop around them. -/
def continuesAny : List Node → Bool
  | [] => false
  | n :: ns => n.continues || continuesAny ns

end

mutual

/-- If the body of a loop with a step goes on to the next round, it assigns to no variable that the test of
the loop makes. -/
def Node.Steady : Node → Prop
  | .choose _ yes no => SteadyAll yes ∧ SteadyAll no
  | .loop test _ stepped step body =>
    (stepped = true → continuesAny body = true → ∀ v ∈ madeAll test, v ∉ assignedAll body) ∧
      SteadyAll test ∧ SteadyAll step ∧ SteadyAll body
  | .doLoop body test _ => SteadyAll body ∧ SteadyAll test
  | _ => True

def SteadyAll : List Node → Prop
  | [] => True
  | n :: ns => n.Steady ∧ SteadyAll ns

end

mutual

/-- The variables that tests of loops make. -/
def Node.tested : Node → List Nat
  | .choose _ yes no => testedAll yes ++ testedAll no
  | .loop test _ _ step body => madeAll test ++ testedAll test ++ testedAll step ++ testedAll body
  | .doLoop body test _ => madeAll test ++ testedAll body ++ testedAll test
  | _ => []

/-- The variables that tests of loops make. -/
def testedAll : List Node → List Nat
  | [] => []
  | n :: ns => n.tested ++ testedAll ns

end

end Codesmith.Direct
