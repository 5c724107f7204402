import Codesmith.Proofs.Script.Meaning

/-!
# Steps see what was assigned last

A structured program can be told without cells: a run keeps the history of all assignments on the path that
control took, and to read a variable is to look up the latest of them. The step of a loop goes on from the
history of the body, no matter whether the body came to its end or went on to the next round from within.

The code of a description behaves as this telling of it, if no body that goes on to a step from within
assigns to a variable which the test of its loop makes. Such a variable is not joined before the step.
-/

namespace Codesmith

/-! ## Histories -/

namespace Direct

/-- The assignments on the path of a run, the latest first. -/
abbrev History := List (Nat × Word)

/-- What was last assigned to each variable; the first variables start as the arguments. -/
def History.last (args : Array Word) (h : History) : Cells := fun v =>
  (h.lookup v).getD (args.getD v .zero)

/-- What came of a part of a run. -/
inductive Tale
  | go (way : Way) (h : History) (m : Memory)
  | ended (o : Outcome Word)

/-- A part of a program that is told; nothing if its loops are not given enough rounds. -/
abbrev Telling := History → Memory → Option Tale

section

variable (args : Array Word)

/-- So many rounds that start with a test. -/
def recallLoop (test : Telling) (c : Option Nat) (step body : Telling) : Nat → Telling
  | 0, _, _ => none
  | n + 1, h, m => do
    match ← test h m with
    | .go .on h m =>
      if holds c (h.last args) then
        match ← body h m with
        | .go .leave h m => return .go .on h m
        | .go _ h m =>
          match ← step h m with
          | .go .on h m => recallLoop test c step body n h m
          | r => return r
        | r => return r
      else return .go .on h m
    | r => return r

/-- So many rounds that end with a test. -/
def recallDo (body test : Telling) (c : Option Nat) : Nat → Telling
  | 0, _, _ => none
  | n + 1, h, m => do
    match ← body h m with
    | .go .leave h m => return .go .on h m
    | .go _ h m =>
      match ← test h m with
      | .go .on h m => if holds c (h.last args) then recallDo body test c n h m else return .go .on h m
      | r => return r
    | r => return r

mutual

/-- Execute a statement on a history. -/
def Node.recall (fuel : Nat) : Node → Telling
  | .take out x, h, m => some (.go .on ((out, x.value (h.last args)) :: h) m)
  | .make out c v x, h, m =>
    match c.value (pair (h.last args v) (x.value (h.last args))) m with
    | .ok w => some (.go .on ((out, w) :: h) m)
    | .error f => some (.ended (.fault f m))
  | .assign v x, h, m => some (.go .on ((v, x.value (h.last args)) :: h) m)
  | .store k p x, h, m =>
    match m.store k (h.last args p) (x.value (h.last args)) with
    | .ok m' => some (.go .on h m')
    | .error f => some (.ended (.fault f m))
  | .choose c yes no, h, m =>
    if (h.last args c).isTrue then recallAll fuel yes h m else recallAll fuel no h m
  | .loop test c _ step body, h, m =>
    recallLoop args (recallAll fuel test) c (recallAll fuel step) (recallAll fuel body) fuel h m
  | .doLoop body test c, h, m => recallDo args (recallAll fuel body) (recallAll fuel test) c fuel h m
  | .leave, h, m => some (.go .leave h m)
  | .next, h, m => some (.go .next h m)
  | .ret x, h, m => some (.ended (.done ((x.map (Source.value (h.last args))).getD .zero) m))

/-- Execute statements in order on a history. -/
def recallAll (fuel : Nat) : List Node → Telling
  | [], h, m => some (.go .on h m)
  | n :: ns, h, m => do
    match ← n.recall fuel h m with
    | .go .on h m => recallAll fuel ns h m
    | r => return r

end

/-- A program that reads what was assigned last ends with an outcome. -/
def Recalls (p : List Node) (m : Memory) (o : Outcome Word) : Prop :=
  o ≠ .unfinished ∧ ∃ fuel, o = match recallAll args fuel p [] m with
    | none => .unfinished
    | some (.go _ _ m) => .done .zero m
    | some (.ended o) => o

/-! ## Histories and cells -/

/-- The result with the cells that a history leaves. -/
def Tale.result : Tale → Result
  | go way h m => .go way (h.last args) m
  | ended o => .ended o

theorem last_cons (v : Nat) (w : Word) (h : History) :
    History.last args ((v, w) :: h) = Function.update (h.last args) v w := by
  funext u
  by_cases hu : u = v
  · simp [History.last, hu]
  · simp [History.last, List.lookup_cons, beq_false_of_ne hu, Function.update_of_ne hu]

/-- A part does with histories what another does with cells. -/
def Retells (p : Telling) (q : Part) : Prop :=
  ∀ h m, q (h.last args) m = (p h m).map (Tale.result args)

variable {args} {test step body : Telling} {test' step' body' : Part}

theorem recallLoop_retells (htest : Retells args test test') (c : Option Nat) (hstep : Retells args step step')
    (hbody : Retells args body body') (n : Nat) :
    Retells args (recallLoop args test c step body n) (rounds (loopRound test' c step' body') n) := by
  induction n with
  | zero => exact fun _ _ => rfl
  | succ n ih =>
    intro h m
    simp only [rounds, loopRound, recallLoop, htest h m]
    rcases test h m with _ | ⟨⟨⟩, h1, m1⟩ | o <;> try rfl
    simp only [Option.map_some, Tale.result, Option.bind_eq_bind, Option.bind_some]
    split
    · rw [hbody h1 m1]
      rcases body h1 m1 with _ | ⟨⟨⟩, h2, m2⟩ | o <;> try rfl
      all_goals
        simp only [Option.map_some, Tale.result, Option.bind_some, lastPart, hstep h2 m2]
        rcases step h2 m2 with _ | ⟨⟨⟩, h3, m3⟩ | o <;> try rfl
        exact ih h3 m3
    · rfl

theorem recallDo_retells (hbody : Retells args body body') (htest : Retells args test test') (c : Option Nat)
    (n : Nat) : Retells args (recallDo args body test c n) (rounds (doRound body' test' c) n) := by
  induction n with
  | zero => exact fun _ _ => rfl
  | succ n ih =>
    intro h m
    simp only [rounds, doRound, recallDo, hbody h m]
    rcases body h m with _ | ⟨⟨⟩, h1, m1⟩ | o <;> try rfl
    all_goals
      simp only [Option.map_some, Tale.result, Option.bind_eq_bind, Option.bind_some, htest h1 m1]
      rcases test h1 m1 with _ | ⟨⟨⟩, h2, m2⟩ | o <;> try rfl
      simp only [Option.map_some, Tale.result, Option.bind_some]
      split
      · exact ih h2 m2
      · rfl

mutual

theorem recall_retells (fuel : Nat) (n : Node) : Retells args (n.recall args fuel) (n.exec fuel) := by
  intro h m
  cases n with
  | choose c yes no =>
    rw [Node.exec, Node.recall]
    split
    · exact recallAll_retells fuel yes h m
    · exact recallAll_retells fuel no h m
  | loop test c stepped step body =>
    exact recallLoop_retells (recallAll_retells fuel test) c (recallAll_retells fuel step)
      (recallAll_retells fuel body) fuel h m
  | doLoop body test c =>
    exact recallDo_retells (recallAll_retells fuel body) (recallAll_retells fuel test) c fuel h m
  | make out c v x =>
    rw [Node.exec, Node.recall]
    cases c.value (pair (h.last args v) (x.value (h.last args))) m <;> simp [Tale.result, last_cons]
  | store k p x =>
    rw [Node.exec, Node.recall]
    cases m.store k (h.last args p) (x.value (h.last args)) <;> rfl
  | take | assign => simp [Node.exec, Node.recall, Tale.result, last_cons]
  | leave | next | ret => rfl

theorem recallAll_retells (fuel : Nat) (ns : List Node) : Retells args (recallAll args fuel ns) (execAll fuel ns) := by
  intro h m
  cases ns with
  | nil => rfl
  | cons n ns =>
    rw [execAll, recallAll, recall_retells fuel n h m]
    rcases n.recall args fuel h m with _ | ⟨⟨⟩, h1, m1⟩ | o <;> try rfl
    exact recallAll_retells fuel ns h1 m1

end

theorem steadyAll_iff {ns : List Node} : SteadyAll ns ↔ ∀ n ∈ ns, n.Steady := by
  induction ns with
  | nil => simp [SteadyAll]
  | cons n ns ih => simp [SteadyAll, ih]

theorem steady_of_tested {ns : List Node} (h : ∀ v ∈ testedAll ns, v ∉ assignedAll ns) : ∀ n ∈ ns, n.Steady :=
  steadyAll_iff.1 (steadyAll_of_tested ns h)

theorem recalls_iff {p : List Node} {m : Memory} {o : Outcome Word} : Recalls args p m o ↔ Yields p args m o := by
  refine and_congr_right fun _ => exists_congr fun fuel => ?_
  rw [run, show (fun v => args.getD v .zero) = History.last args [] from rfl, recallAll_retells fuel p [] m, eq_comm]
  rcases recallAll args fuel p [] m with _ | ⟨_ | _, _, _⟩ <;> rfl

end

end Direct

/-! ## Steps of loops -/

namespace Script

open Describe

/-- The step of a loop reads what was last assigned to each variable in scope on the path by which control
came to it, if a body that goes on to the step from within assigns to no variable which the test of the loop
makes: the code ends as the structured program does that looks every variable up in the history of
assignments. Only a result that is missing at the end keeps the description from being finished. -/
theorem steps_see_last_assignments {config : Config} {name : String} {sig : Signature} {body : List Stmt}
    {s : Sketch} (hbody : plainAll body = true) (hprofile : config.profileError = none)
    (h : sketch? config name sig body = some s) (hsteady : ∀ n ∈ meaning name sig body, n.Steady)
    (position : Position) :
    (∀ e s', finish position s = .ok (.error e, s') →
        s.dead = false ∧ ∃ f, e = .failed name f ∧ f.reason = .missingResult sig.result) ∧
      ((s.dead = true ∨ sig.result.isVoid = true) → ∃ code s', finish position s = .ok (.ok code, s') ∧
        ∀ (args : Array Word) (m : Memory) (o : Outcome Word), args.size = sig.params.length →
          (code.program.Yields args m o ↔ Direct.Recalls args (meaning name sig body) m o)) := by
  have hmeans := finish_means hbody hprofile h (Direct.steadyAll_iff.2 hsteady) position
  split at hmeans
  · rename_i hmissing
    obtain ⟨f, s', hfinish, hf⟩ := hmeans
    refine ⟨fun e s'' he => ?_, fun hends => ?_⟩
    · cases hfinish.symm.trans he
      exact ⟨hmissing.1, f, rfl, hf⟩
    · simp [hmissing] at hends
  · obtain ⟨code, s', hfinish, hdoes⟩ := hmeans
    refine ⟨fun e s'' he => ?_, fun _ => ⟨code, s', hfinish, fun args m o hargs => ?_⟩⟩
    · cases hfinish.symm.trans he
    · rw [hdoes.yields args m o hargs, Direct.recalls_iff]

/-- Add up a variable; the first round assigns to it and goes on to the step. Statements before the loop or
in its test make the variable. -/
def nineFirst (before inTest : List Stmt) : List Stmt :=
  let word (n : Int) : Term := .const (.ofInt (.int (some .w64) true) n)
  [.arg "n" 0, .const "sum" .i64 (word 0), .const "i" .i64 (word 0)] ++ before ++
    [.forLoop .missing (.stmts (inTest ++ [.binary (.compare .lt) "c" "i" (.name "n")]) "c")
      (.stmts [.binary (.arith .add) "s" "sum" (.name "k"), .assign "sum" (.name "s"),
        .binary (.arith .add) "j" "i" (word 1), .assign "i" (.name "j")])
      (.stmts [.binary (.compare .eq) "z" "i" (word 0),
        .ifThen "z" (.stmts [.assign "k" (word 9), .nextRound])]),
    .ret (.name "sum")]

/-- Make the variable. -/
def five : Stmt :=
  .const "k" .i64 (.const (.ofInt (.int (some .w64) true) 5))

theorem steps_see_nine : ∃ code : Code, ∀ (m : Memory) (o : Outcome Word), code.program.Yields #[.ofBits 2] m o ↔
    Direct.Recalls #[.ofBits 2] (meaning "f" ⟨[.i64], .i64⟩ (nineFirst [five] [])) m o := by
  have hdead : (sketch? { backend := "asm" } "f" ⟨[.i64], .i64⟩ (nineFirst [five] [])).map Sketch.dead =
      some true := by
    decide +kernel
  obtain ⟨s, h, hs⟩ := Option.map_eq_some_iff.1 hdead
  obtain ⟨-, hcode⟩ := steps_see_last_assignments (by decide +kernel) rfl h
    (Direct.steady_of_tested (by decide +kernel)) ⟨"finalize", 1⟩
  obtain ⟨code, -, -, hruns⟩ := hcode (.inl hs)
  exact ⟨code, fun m o => hruns _ m o rfl⟩

/-- The outcome of at most so many steps of the code of a description, if there is code. -/
def outcome? (backend : String) (sig : Signature) (body : List Stmt) (fuel : Nat) (args : Array Word) (m : Memory) :
    Option (Outcome Word) := do
  let s ← sketch? { backend } "f" sig body
  let (result, _) ← (finish ⟨"finalize", 1⟩ s).toOption
  return (← result.toOption).program.run fuel args m

/-- The step does not see what the body assigned if the test makes the variable. -/
theorem test_variable_stale : outcome? "asm" ⟨[.i64], .i64⟩ (nineFirst [] [five]) 40 #[.ofBits 2] ⟨#[]⟩ =
        some (.done (.ofBits 10) ⟨#[]⟩) ∧
      Direct.Recalls #[.ofBits 2] (meaning "f" ⟨[.i64], .i64⟩ (nineFirst [] [five])) ⟨#[]⟩
        (.done (.ofBits 14) ⟨#[]⟩) :=
  ⟨by decide +kernel, by simp, 4, by decide +kernel⟩

end Script

end Codesmith
