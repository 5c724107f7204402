import Codesmith.Proofs.Describe.Whole
import Codesmith.Proofs.Script.Described

/-!
# Descriptions keep their meaning

A script that describes a function without a rejection is read as a structured program. If no variable that
the test of a loop makes is assigned to, only a result that is missing at the end can keep the function from
being finished, and the code then does what the structured program does: it returns the same word, leaves
the same memory and stops with the same fault, or it runs forever as well.
-/

namespace Codesmith

/-! ## Steady programs -/

namespace Direct

mutual

theorem Node.steady_of_tested (n : Node) (h : ∀ v ∈ n.tested, v ∉ n.assigned) : n.Steady := by
  cases n with
  | choose c yes no =>
    simp only [Node.tested, Node.assigned, List.mem_append, not_or] at h
    exact ⟨steadyAll_of_tested yes fun v hv => (h v (.inl hv)).1,
      steadyAll_of_tested no fun v hv => (h v (.inr hv)).2⟩
  | loop test c stepped step body =>
    simp only [Node.tested, Node.assigned, List.mem_append, not_or] at h
    exact ⟨fun _ _ v hv => (h v (.inl (.inl (.inl hv)))).2,
      steadyAll_of_tested test fun v hv => (h v (.inl (.inl (.inr hv)))).1.1,
      steadyAll_of_tested step fun v hv => (h v (.inl (.inr hv))).1.2,
      steadyAll_of_tested body fun v hv => (h v (.inr hv)).2⟩
  | doLoop body test c =>
    simp only [Node.tested, Node.assigned, List.mem_append, not_or] at h
    exact ⟨steadyAll_of_tested body fun v hv => (h v (.inl (.inr hv))).1,
      steadyAll_of_tested test fun v hv => (h v (.inr hv)).2⟩
  | _ => trivial

/-- A program in which nothing is assigned to what tests make is steady. -/
theorem steadyAll_of_tested (ns : List Node) (h : ∀ v ∈ testedAll ns, v ∉ assignedAll ns) : SteadyAll ns := by
  cases ns with
  | nil => trivial
  | cons n ns =>
    simp only [testedAll, assignedAll, List.mem_append, not_or] at h
    exact ⟨n.steady_of_tested fun v hv => (h v (.inl hv)).1, steadyAll_of_tested ns fun v hv => (h v (.inr hv)).2⟩

end

theorem not_yields_iff {p : List Node} {args : Array Word} {m : Memory} :
    (∀ o, ¬ Yields p args m o) ↔ ∀ fuel, run fuel p args m = .unfinished := by
  constructor
  · intro h fuel
    by_contra hne
    exact h _ ⟨hne, fuel, rfl⟩
  · rintro h o ⟨ho, fuel, rfl⟩
    exact ho (h fuel)

end Direct

namespace Script

open Gen (Sheet)
open Direct
open Describe

variable {config : Config} {name : String} {sig : Signature} {body : List Stmt} {s : Sketch}

/-! ## Descriptions -/

/-- What a script describes from the start of a function, if it comes to its end and nothing is rejected. -/
def sketch? (config : Config) (name : String) (sig : Signature) (body : List Stmt) : Option Sketch :=
  match Sketch.start config 0 name sig ⟨"new", 1⟩ with
  | .ok (.ok s) =>
    match execAll body ⟨#[s], { config }⟩ with
    | (.ok (), w) => w.sketches[0]?.filter fun s => s.error.isNone
    | _ => none
  | _ => none

/-- The structured program that a script is read as. -/
def meaning (name : String) (sig : Signature) (body : List Stmt) : List Direct.Node :=
  (readAll body (.start ⟨0, name⟩ sig)).1

theorem sketch?_eq_some : sketch? config name sig body = some s ↔
    ∃ s0 w, Sketch.start config 0 name sig ⟨"new", 1⟩ = .ok (.ok s0) ∧
      execAll body ⟨#[s0], { config }⟩ = (.ok (), w) ∧ w.sketches[0]? = some s ∧ s.error = none := by
  rw [sketch?]
  split
  · rename_i s0 hstart
    split
    · rename_i w hrun
      rw [Option.filter_eq_some_iff, Option.isNone_iff_eq_none]
      refine ⟨fun h => ⟨s0, w, hstart, hrun, h⟩, fun ⟨s0', w', hstart', hrun', h⟩ => ?_⟩
      cases hstart.symm.trans hstart'
      cases hrun.symm.trans hrun'
      exact h
    · rename_i hrun
      exact ⟨nofun, fun ⟨s0', w, hstart', hrun', _⟩ => by
        cases hstart.symm.trans hstart'
        exact absurd hrun' (hrun w)⟩
  · rename_i hstart
    exact ⟨nofun, fun ⟨s0, w, hstart', _⟩ => absurd hstart' (hstart s0)⟩

/-- A description as it is drawn: from the start it adds to the sketch the statements that the script is read
as, and the scripts that stop within it are drawn on the way. -/
structure Drafted (config : Config) (name : String) (sig : Signature) (body : List Stmt) (s₀ s : Sketch)
    (A₀ A : Sheet) : Prop where
  start : Sketch.start config 0 name sig ⟨"new", 1⟩ = .ok (.ok s₀)
  started : Started config ⟨0, name⟩ sig s₀ A₀
  draws : Draws (meaning name sig body) s₀ A₀ s A
  error : s.error = none
  stops : ∀ q, CutAll body q → Stops (execAll q) ⟨#[s₀], { config }⟩ A

theorem scope_start {s0 : Sketch} {A0 : Sheet} (h : Started config ⟨0, name⟩ sig s0 A0) :
    (Scope.start ⟨0, name⟩ sig).At ⟨#[s0], { config }⟩ s0 where
  id := h.id
  sig := h.sig
  types := h.types
  only := rfl
  named := rfl
  valid := ⟨rfl, List.prefix_refl _, nofun⟩

theorem drafted (h : sketch? config name sig body = some s) (hbody : plainAll body = true) {strict : Prop}
    (hsteady : strict → SteadyAll (meaning name sig body)) :
    ∃ s0 A0 A, A0.strict = strict ∧ Drafted config name sig body s0 s A0 A := by
  obtain ⟨s0, w, hstart, hrun, hs, herr⟩ := sketch?_eq_some.1 h
  obtain ⟨A0, rfl, hst⟩ := start_draws hstart strict
  have hrejected : ¬ Rejected w := fun ⟨s', hs', herr'⟩ => by
    cases hs.symm.trans hs'
    rw [herr] at herr'
    cases herr'
  obtain ⟨-, s', A, hat, hdraws, hstops⟩ := reads_execAll body hbody _ _ s0 A0 () w (scope_start hst) hst.drawn
    hst.ready hsteady hrun hrejected
  obtain rfl : s' = s := by simpa [hat.only] using hs
  exact ⟨s0, A0, A, rfl, hstart, hst, hdraws, herr, fun q hq => hstops _ ⟨q, hq, rfl⟩⟩

namespace Drafted

variable {s0 : Sketch} {A0 A : Sheet}
variable {B : Sheet} {args : Array Word}

section

variable (h : Drafted config name sig body s0 s A0 A)
include h

theorem ext : A0.Extends A :=
  h.draws.progress.grows.ext

/-- Every block that control may get to has ended, the current one apart. -/
theorem not_idle (l : Label) : ¬ A.Idle l := by
  intro hl
  obtain ⟨hlt, hne, -⟩ := h.draws.progress.idle l hl
  rw [h.started.chart] at hlt hne
  exact hne (Nat.lt_one_iff.1 hlt)

/-- A run of a sheet that goes on from the description comes to where the structured program begins. -/
theorem begins (hAB : A.Extends B) (hB : B.Sound) (hs : B.strict) (hargs : args.size = sig.params.length)
    (m : Memory) :
    ∃ l j k t, point s0 A0 = some (l, j) ∧ Walks (B.chart.step args) k (Gen.Chart.start m) t ∧ t.memory = m ∧
      B.Stands l j (fun v => args.getD v .zero) t := by
  obtain ⟨k, t, hw, hm, ht⟩ := (h.started.prologue.mono (h.ext.trans hAB)).begins hB hs hargs m
  have hentry : A0.chart.current = Graph.entry := by rw [h.started.chart]; rfl
  refine ⟨_, _, k, t, ?_, hw, hm, ht⟩
  have hlive : s0.dead = false := by
    rw [Bool.eq_false_iff]
    exact fun hdead => ht.alive ((h.ext.trans hAB).dead _ (hentry ▸ h.started.ready.dead.2 hdead))
  rw [point, hlive, h.started.top, hentry]
  rfl

/-- A program that performs such a sheet ends as the structured program does, if control returns from the
end of the description. -/
theorem yields_iff (hAB : A.Extends B) (hB : B.Sound) (hs : B.strict) (hsig : B.chart.sig = sig)
    (hend : ∀ l j, point s A = some (l, j) → EndsAt B l j (.ret none)) {p : Gen.Program}
    (hp : p.Performs B.chart) (hargs : args.size = sig.params.length) (m : Memory) (o : Outcome Word) :
    p.Yields args m o ↔ Yields (meaning name sig body) args m o := by
  obtain ⟨l, j, k, t, hpoint, hw, rfl, ht⟩ := h.begins hAB hB hs hargs m
  have hlaid := h.draws.laid.mono hAB
  rw [hpoint, Sketch.around, h.started.loops] at hlaid
  rw [← hp args t.memory o (hsig ▸ hargs), hw.ends_iff]
  exact ends_iff_yields hB hlaid hend ht

end

end Drafted

/-! ## The code of a description -/

/-- The code does what a structured program does. -/
structure Does (code : Code) (sig : Signature) (nodes : List Direct.Node) : Prop where
  yields : ∀ (args : Array Word) (m : Memory) (o : Outcome Word), args.size = sig.params.length →
    (code.program.Yields args m o ↔ Direct.Yields nodes args m o)
  runsForever : ∀ (args : Array Word) (m : Memory), args.size = sig.params.length →
    (code.program.RunsForever args m ↔ ∀ fuel, Direct.run fuel nodes args m = .unfinished)

/-- A steady description can be finished unless control gets to its end and a result is missing there, and
the code does what the structured program does. -/
theorem finish_means (hbody : plainAll body = true) (hprofile : config.profileError = none)
    (h : sketch? config name sig body = some s) (hsteady : SteadyAll (meaning name sig body)) (position : Position) :
    if s.dead = false ∧ sig.result.isVoid = false then
      ∃ e s', finish position s = .ok (.error (.failed name e), s') ∧ e.reason = .missingResult sig.result
    else ∃ code s', finish position s = .ok (.ok code, s') ∧ Does code sig (meaning name sig body) := by
  obtain ⟨s0, A0, A, hstrict, hd⟩ := drafted h hbody fun _ : True => hsteady
  have hevolves := hd.draws.progress.evolves
  have hid : s.id = ⟨0, name⟩ := hevolves.id.trans hd.started.id
  have hsig : s.sig = sig := hevolves.sig.trans hd.started.sig
  have hs : A.strict := hd.ext.strict.2 (hstrict ▸ trivial)
  have hends := finish_ends position hd.draws.progress.drawn hd.draws.progress.ready hd.error
    (hevolves.finished.trans hd.started.finished) ((hevolves.profile.trans hd.started.profile).trans hprofile) hs
    hd.not_idle
  simp only [hsig, hid] at hends
  split at hends
  · rwa [if_pos ‹_›]
  rw [if_neg ‹_›]
  obtain ⟨B, code, s', hfinish, hperf, hAB, hB, hBsig, hend⟩ := hends
  have hyields : ∀ (args : Array Word) m o, args.size = sig.params.length →
      (code.program.Yields args m o ↔ Yields (meaning name sig body) args m o) := fun args m o hargs =>
    hd.yields_iff hAB hB (hAB.strict.2 hs) hBsig hend hperf hargs m o
  refine ⟨code, s', hfinish, hyields, fun args m hargs => ?_⟩
  rw [Gen.Program.runsForever_iff, ← not_yields_iff]
  exact forall_congr' fun o => not_congr (hyields args m o hargs)

/-- The code was finished from a steady description of which nothing was rejected. -/
structure FinishedFrom (code : Code) (name : String) (sig : Signature) (body : List Stmt) : Prop where
  plain : plainAll body = true
  steady : SteadyAll (meaning name sig body)
  finished : ∃ config s position s', config.profileError = none ∧ sketch? config name sig body = some s ∧
    finish position s = .ok (.ok code, s')

theorem FinishedFrom.does {code : Code} (h : FinishedFrom code name sig body) :
    Does code sig (meaning name sig body) := by
  obtain ⟨config, s, position, s', hprofile, hs, hfinish⟩ := h.finished
  have hmeans := finish_means h.plain hprofile hs h.steady position
  split at hmeans
  · obtain ⟨e, s'', hfails, -⟩ := hmeans
    cases hfinish.symm.trans hfails
  · obtain ⟨code', s'', hends, hdoes⟩ := hmeans
    cases hfinish.symm.trans hends
    exact hdoes

/-- A steady description comes to code if it ends with a result. -/
theorem exists_finishedFrom (hbody : plainAll body = true) (hprofile : config.profileError = none)
    (hsteady : SteadyAll (meaning name sig body))
    (hend : ((sketch? config name sig body).map fun s => s.dead || sig.result.isVoid) = some true) :
    ∃ code, FinishedFrom code name sig body := by
  obtain ⟨s, h, hs⟩ := Option.map_eq_some_iff.1 hend
  have hmeans := finish_means hbody hprofile h hsteady ⟨"finalize", 1⟩
  rw [if_neg fun ⟨hlive, hvoid⟩ => by simp [hlive, hvoid] at hs] at hmeans
  obtain ⟨code, s', hfinish, -⟩ := hmeans
  exact ⟨code, hbody, hsteady, config, s, _, s', hprofile, h, hfinish⟩

/-- The description layer preserves meaning. A script without a rejection, in which nothing is assigned to
the variables that tests of loops make, can be finished unless control gets to its end and a result is
missing there. The code ends with the outcomes of the structured program, and runs forever if the program
does. -/
theorem code_means_description (hbody : plainAll body = true) (hprofile : config.profileError = none)
    (h : sketch? config name sig body = some s)
    (htested : ∀ v ∈ testedAll (meaning name sig body), v ∉ assignedAll (meaning name sig body))
    (position : Position) :
    if s.dead = false ∧ sig.result.isVoid = false then
      ∃ e s', finish position s = .ok (.error (.failed name e), s') ∧ e.reason = .missingResult sig.result
    else
      ∃ code s', finish position s = .ok (.ok code, s') ∧
        ∀ (args : Array Word) (m : Memory), args.size = sig.params.length →
          (∀ o, code.program.Yields args m o ↔ Direct.Yields (meaning name sig body) args m o) ∧
            (code.program.RunsForever args m ↔
              ∀ fuel, Direct.run fuel (meaning name sig body) args m = .unfinished) := by
  have hmeans := finish_means hbody hprofile h (steadyAll_of_tested _ htested) position
  split at hmeans
  · rwa [if_pos ‹_›]
  rw [if_neg ‹_›]
  obtain ⟨code, s', hfinish, hdoes⟩ := hmeans
  exact ⟨code, s', hfinish, fun args m hargs =>
    ⟨fun o => hdoes.yields args m o hargs, hdoes.runsForever args m hargs⟩⟩

/-- Add up the odd numbers below a bound, until the sum is large. -/
def oddSum : List Stmt :=
  let word (n : Int) : Term := .const (.ofInt (.int (some .w64) true) n)
  [.arg "n" 0,
    .const "sum" .i64 (word 0),
    .forLoop (.stmts [.const "i" .i64 (word 0)])
      (.stmts [.binary (.compare .lt) "more" "i" (.name "n")] "more")
      (.stmts [.binary (.arith .add) "next" "i" (word 1), .assign "i" (.name "next")])
      (.stmts [.binary (.arith .rem) "low" "i" (word 2), .binary (.compare .eq) "even" "low" (word 0),
        .ifThen "even" (.stmts [.nextRound]),
        .binary (.arith .add) "next" "sum" (.name "i"), .assign "sum" (.name "next"),
        .binary (.compare .gt) "large" "sum" (word 1000), .ifThen "large" (.stmts [.leaveLoop])]),
    .ret (.name "sum")]

theorem code_means_oddSum : ∃ s code s', sketch? { backend := "ssa" } "sum" ⟨[.i64], .i64⟩ oddSum = some s ∧
    finish ⟨"finalize", 1⟩ s = .ok (.ok code, s') ∧
    ∀ (n : Word) (m : Memory) (o : Outcome Word), code.program.Yields #[n] m o ↔
      Direct.Yields (meaning "sum" ⟨[.i64], .i64⟩ oddSum) #[n] m o := by
  have hdead : (sketch? { backend := "ssa" } "sum" ⟨[.i64], .i64⟩ oddSum).map Sketch.dead = some true := by
    decide +kernel
  obtain ⟨s, h, hs⟩ := Option.map_eq_some_iff.1 hdead
  have hcode := code_means_description (by decide +kernel) rfl h (by decide +kernel) ⟨"finalize", 1⟩
  rw [if_neg (by simp [hs])] at hcode
  obtain ⟨code, s', hfinish, hruns⟩ := hcode
  exact ⟨s, code, s', h, hfinish, fun n m o => (hruns #[n] m rfl).1 o⟩

end Script

end Codesmith
