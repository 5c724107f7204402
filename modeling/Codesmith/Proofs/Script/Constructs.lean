import Codesmith.Proofs.Script.Parts

/-!
# Constructs as they are read

A construct is read if its parts are. The edits between the parts make no variable, so each part finds the
variables that the reading tells, and it starts on a sheet on which everything in scope is known. A
description that stops within a part stops within the construct.
-/

set_option synthInstance.maxSize 512

namespace Codesmith.Script

open Gen (Sheet)
open Direct (Node SteadyAll madeAll assignedAll)
open Describe

variable {sc sc' sc1 sc2 sc3 : Scope} {s s' : Sketch} {A A' B B' : Sheet} {w w' : Workspace Env}
  {nodes : List Node} {position : Position}
variable {C : Set (Run Unit)} {v : Option Value} {yes : Option (Run Unit)} {ys : List Node} {name : String}
  {α : Type}

/-! ## Conditionals -/

theorem startIf_some {c : Option Value} {hasElse : Bool} {k : Option Conditional}
    (h : startIf c hasElse position s = .ok (k, s')) (herr : s'.error = none) : k.isSome = true := by
  obtain ⟨_, _, -, h1⟩ := Attempt.bind_ok (attempt_ok h herr)
  obtain ⟨_, _, -, h2⟩ := Attempt.bind_ok h1
  obtain ⟨_, _, -, h3⟩ := Attempt.bind_ok (Attempt.get_ok h2)
  obtain ⟨_, _, -, h4⟩ := Attempt.bind_ok h3
  dsimp only at h4
  split at h4
  all_goals
    obtain ⟨_, _, -, h5⟩ := Attempt.bind_ok h4
    obtain ⟨_, _, -, h6⟩ := Attempt.bind_ok h5
    obtain ⟨_, _, -, h7⟩ := Attempt.bind_ok h6
    obtain ⟨rfl, -⟩ := Attempt.pure_ok h7
    rfl

instance (k : Conditional) (b : BlockId) (p : Option (Run Unit)) [StickyPart p] :
    StickyRun (part k b p position) := by
  unfold part
  infer_instance

theorem PartReads.part {p : Option (Run Unit)} [StickyPart p] {k k' : Conditional} {b : BlockId}
    (h : PartReads p C sc nodes sc') (hat : sc.At w s) (hrun : part k b p position w = (.ok k', w'))
    (hw' : ¬ Rejected w') : ∃ t, enterPart k b s = .ok ((), t) ∧ ∀ B, Drawn t B → AllReady t B →
      (B.strict → SteadyAll nodes) → ∃ t' B' s', Draws nodes t B t' B' ∧ Closes t t' ∧ t'.error = none ∧
        leavePart k position t' = .ok (k', s') ∧ sc'.At w' s' ∧
          ∀ c ∈ C, Stops (Describe.part k b (some c) position) w B' := by
  obtain ⟨_, t, ht, -, hat1, hrun⟩ := hat.here hrun hw'
  refine ⟨t, ht, fun B hd hr hsteady => ?_⟩
  obtain ⟨_, w2, hrun2, hw2, hrun⟩ := bind_accepted hrun hw'
  obtain ⟨t', B', hat', herr, hdraws, hcloses, hstops⟩ := h.inScope hat1 hd hr hsteady hrun2 hw2
  obtain ⟨s', hs', -, rfl⟩ := here_accepted hat' hrun hw'
  exact ⟨t', B', s', hdraws, hcloses, herr, hs', hat'.settles ((leads_leavePart _ _).holds _ _ _ hs'),
    fun c hc => Stops.here hat.only ht ((hstops c hc).bind _)⟩

theorem reads_ifThen [StickyPart yes] (hv : ∀ u, v = some u → sc.Has u) (hyes : PartReads yes C sc ys sc') :
    Reads (ifElse v yes none position) {c | ∃ r ∈ C, c = ifElse v (some r) none position} sc
      [.choose (conditionCell v) ys []] sc' () := by
  intro w s A u w' hat hd hr hsteady hrun hw'
  obtain ⟨k, s0, hstart, herr0, hat0, hrun⟩ := hat.here hrun hw'
  obtain ⟨k, rfl⟩ := Option.isSome_iff_exists.1 (startIf_some hstart herr0)
  obtain ⟨k', w3, hpart, hw3, hrun⟩ := bind_accepted hrun hw'
  obtain ⟨t1, henter, hpart⟩ := hyes.part hat0 hpart hw3
  obtain ⟨B1, hd1, hr1, hext1, hrest⟩ :=
    draws_ifThen hstart herr0 (fun u hu => hat.refers (hv u hu)) henter ys hd hr
  obtain ⟨t2, B2, t3, hdraws, hcloses, herr, hleave, hat3, hstops⟩ := hpart B1 hd1 hr1
    fun h => ((hsteady (hext1.strict.1 h)).1).1
  obtain ⟨t', hend, -, rfl⟩ := here_accepted hat3 hrun hw'
  obtain ⟨A', hA', hext⟩ := hrest t2 B2 hdraws hcloses herr k' t3 t' hleave hend
  refine ⟨rfl, t', A', hat3.settles ((leads_endIf _).holds _ _ _ hend), hA', ?_⟩
  rintro c ⟨r, hr, rfl⟩
  exact Stops.here hat.only hstart (((hstops r hr).mono hext).bind _)

/-- A conditional with two parts. -/
theorem reads_ifElse {no : Run Unit} [StickyPart yes] [StickyRun no] {C' : Set (Run Unit)} {ns : List Node}
    (hv : ∀ u, v = some u → sc.Has u) (hyes : PartReads yes C sc ys sc1) (hno : Reads no C' sc1 ns sc2 ()) :
    Reads (ifElse v yes (some no) position) ({c | ∃ r ∈ C, c = ifElse v (some r) (some no) position} ∪
      {c | ∃ r ∈ C', c = ifElse v yes (some r) position}) sc [.choose (conditionCell v) ys ns] sc2 () := by
  intro w s A u w' hat hd hr hsteady hrun hw'
  obtain ⟨k, s0, hstart, herr0, hat0, hrun⟩ := hat.here hrun hw'
  obtain ⟨k, rfl⟩ := Option.isSome_iff_exists.1 (startIf_some hstart herr0)
  obtain ⟨k', w3, hpart1, hw3, hrun⟩ := bind_accepted hrun hw'
  obtain ⟨t1, henter, hpart⟩ := hyes.part hat0 hpart1 hw3
  obtain ⟨B1, hd1, hr1, hext1, hrest⟩ :=
    draws_ifElse hstart herr0 (fun u hu => hat.refers (hv u hu)) henter ys ns hd hr
  obtain ⟨t2, B2, t3, hdraws, hcloses, herr, hleave, hat3, hstops⟩ := hpart B1 hd1 hr1
    fun h => (hsteady (hext1.strict.1 h)).1.1
  obtain ⟨_, t4, hrestore, -, hat4, hrun⟩ := hat3.here hrun hw'
  obtain ⟨k'', w7, hpart2, hw7, hrun⟩ := bind_accepted hrun hw'
  obtain ⟨t5, henter', hpart'⟩ := PartReads.part (p := some no) hno hat4 hpart2 hw7
  obtain ⟨B5, hd5, hr5, hext5, hrest⟩ := hrest t2 B2 hdraws hcloses herr k' t3 t4 t5 hleave hrestore henter'
  have hext2 := (hext1.trans hdraws.progress.grows.ext).trans hext5
  obtain ⟨t6, B6, t7, hdraws', hcloses', herr', hleave', hat7, hstops'⟩ := hpart' B5 hd5 hr5
    fun h => (hsteady (hext2.strict.1 h)).1.2
  obtain ⟨t', hend, -, rfl⟩ := here_accepted hat7 hrun hw'
  obtain ⟨A', hA', hext⟩ := hrest t6 B6 hdraws' hcloses' herr' k'' t7 t' hleave' hend
  refine ⟨rfl, t', A', hat7.settles ((leads_endIf _).holds _ _ _ hend), hA', ?_⟩
  have hext6 := (hext5.trans hdraws'.progress.grows.ext).trans hext
  rintro c (⟨r, hr, rfl⟩ | ⟨r, hr, rfl⟩)
  · exact Stops.here hat.only hstart (((hstops r hr).mono hext6).bind _)
  · exact Stops.here hat.only hstart (Stops.after hpart1
      (Stops.here hat3.only hrestore (((hstops' r hr).mono hext).bind _)))

/-! ## Tests of loops -/

/-- Describe the test of a loop, and go on with its value. -/
def testThen (name : String) (test : Option (Run (Option Value))) (rest : Option Ref → Run Unit)
    (position : Position) : Run Unit :=
  match test with
  | none => rest none
  | some test => do
    let v ← test
    match ← here (loopCondition name v position) with
    | none => return ()
    | some ref => rest (some ref)

instance (name : String) (test : Option (Run (Option Value))) [h : StickyPart test]
    (rest : Option Ref → Run Unit) [∀ c, StickyRun (rest c)] : StickyRun (testThen name test rest position) := by
  cases test with
  | none => exact inferInstanceAs (StickyRun (rest none))
  | some r =>
    have := h.sticky r rfl
    have hrest : ∀ c : Option Ref, StickyRun (match c with
        | none => pure ()
        | some ref => rest (some ref) : Run Unit) := fun c => by cases c <;> infer_instance
    unfold testThen
    infer_instance

theorem loopCondition_ok {c : Option Ref} (hv : ∀ u, v = some u → Refers s u)
    (h : loopCondition name v position s = .ok (c, s')) (herr : s'.error = none) :
    s' = s ∧ Checked s c (some (conditionCell v)) ∧ c.isSome = true := by
  replace h := Attempt.get_ok (attempt_ok h herr)
  cases he : s.error with
  | some e =>
    rw [he] at h
    cases h
  | none =>
    rw [he] at h
    obtain ⟨r, t, hcond, h1⟩ := Attempt.bind_ok h
    obtain ⟨rfl, u, x, rfl, hx, hopen, rfl, hbool⟩ := condition_ok hv hcond
    obtain ⟨rfl, rfl⟩ := Attempt.pure_ok h1
    exact ⟨rfl, ⟨x, hx, hopen, hbool, rfl⟩, rfl⟩

/-- The test of a loop leaves a variable in scope that holds its condition. Whatever stops after the test
stops after it as well when the test is part of a description. -/
theorem TestReads.testThen {test : Option (Run (Option Value))} [htest : StickyPart test]
    {rest : Option Ref → Run Unit} [∀ c, StickyRun (rest c)] {C : Set (Run (Option Value))} {c : Option Nat}
    (h : TestReads test C sc nodes c sc') (hat : sc.At w s) (hd : Drawn s A) (hr : AllReady s A)
    (hsteady : A.strict → SteadyAll nodes) {u : Unit}
    (hrun : testThen name test rest position w = (.ok u, w')) (hw' : ¬ Rejected w') :
    ∃ ref w1 t B, sc'.At w1 t ∧ Draws nodes s A t B ∧ Checked t ref c ∧ rest ref w1 = (.ok u, w') ∧
      (∀ r ∈ C, ∀ rest', Stops (Script.testThen name (some r) rest' position) w B) ∧
      ∀ rest' B', Stops (rest' ref) w1 B' → Stops (Script.testThen name test rest' position) w B' := by
  cases test with
  | none =>
    obtain ⟨rfl, rfl, rfl, rfl⟩ := h
    exact ⟨none, w, s, A, hat, draws_nil hd hr, rfl, hrun, nofun, fun _ _ hstop => hstop⟩
  | some r =>
    have := htest.sticky r rfl
    obtain ⟨v, hreads, rfl, hv⟩ := h
    have hsticky : ∀ c : Option Ref, StickyRun (match c with
        | none => pure ()
        | some ref => rest (some ref) : Run Unit) := fun c => by cases c <;> infer_instance
    obtain ⟨v', w1, hrun1, hw1, hrun⟩ := bind_accepted hrun hw'
    obtain ⟨rfl, t, B, hat1, hdraws, hstops⟩ := hreads w s A v' w1 hat hd hr hsteady hrun1 hw1
    obtain ⟨c, t', hc, herr, -, hrun⟩ := hat1.here hrun hw'
    obtain ⟨rfl, hchecked, hsome⟩ := loopCondition_ok (fun u hu => hat1.refers (hv hat1.valid u hu)) hc herr
    obtain ⟨ref, rfl⟩ := Option.isSome_iff_exists.1 hsome
    have hput : put w1 t' = w1 := by rw [put, ← hat1.only]
    rw [hput] at hrun
    exact ⟨some ref, w1, t', B, hat1, hdraws, hchecked, hrun, fun r hr rest' => (hstops r hr).bind _,
      fun rest' B' hstop => Stops.after hrun1 (Stops.here hat1.only hc (by rw [hput]; exact hstop))⟩

/-! ## Loops -/

theorem rejected_run {x y : Run α} (hw : w.sketches = #[s]) (herr : s.error = none) :
    (here rejected >>= fun b => if b = true then y else x) w = x w := by
  have hrejected : rejected s = .ok (s.error.isSome, s) := rfl
  rw [bind_run, here_run hw, hrejected, herr]
  show x (put w s) = x w
  rw [put, ← hw]

theorem Stops.congr {c c' : Run α} (h : Stops c' w B) (heq : c w = c' w) : Stops c w B := by
  rw [Stops, heq]
  exact h

section Loops

variable {step body : Option (Run Unit)} [StickyPart step] [StickyPart body] {p : LoopPlan}
variable {l : Loop} {h : HeadState}

instance (l : Loop) (h : HeadState) : StickyRun (loopStep p l h step position) := by
  unfold loopStep
  cases p.step <;> infer_instance

instance (c : Option Ref) : StickyRun (loopRest p c step body position) := by
  unfold loopRest
  infer_instance

omit [StickyPart step] in
theorem loopStep_none (hp : p.step = none) : loopStep p l h step position = here (endLoop p l h) := by
  unfold loopStep
  rw [hp]

omit [StickyPart step] in
theorem loopStep_some {b : BlockId} (hp : p.step = some b) : loopStep p l h step position = (do
      here (do restore h.refs; merge b l.continues l.size none)
      inScope step
      if ← here rejected then return ()
      here (leaveStep l position)
      here (endLoop p l h) : Run Unit) := by
  unfold loopStep
  rw [hp]

/-- The body and the step of a loop are described after its head. -/
theorem reads_loopRest {V : Nat → Prop} {b x : Label} {z : Option Label} {ts bs ns : List Node}
    {c : Option Nat} {ref : Option Ref} {t1 t2 : Sketch} {B2 : Sheet} {C C' : Set (Run Unit)}
    (hs : Starts V b x z p s A t1 B) (hz : z.isSome = step.isSome) (hr : AllReady s A)
    (hV : ∀ v, V v ↔ v ∈ assignedAll [Node.loop ts c step.isSome ns bs])
    (htest : Draws ts t1 B t2 B2) (hc : Checked t2 ref c) (hat : sc.At w t2)
    (hbody : PartReads body C sc bs sc1) (hstep : PartReads step C' sc1 ns sc2)
    (hsteady : A.strict → (Node.loop ts c step.isSome ns bs).Steady) {u : Unit}
    (hrun : loopRest p ref step body position w = (.ok u, w')) (hw' : ¬ Rejected w') :
    ∃ s' A', sc2.At w' s' ∧ Outlines [.loop ts c step.isSome ns bs] s A s' A' ∧ B2.Extends A' ∧
      (∀ r ∈ C, ∀ step', Stops (loopRest p ref step' (some r) position) w A') ∧
      ∀ r ∈ C', Stops (loopRest p ref (some r) body position) w A' := by
  have hVt : ∀ v ∈ assignedAll ts, V v := fun v hv => (hV v).2 (by simp [assignedAll, Node.assigned, hv])
  have hVb : ∀ v ∈ assignedAll bs, V v := fun v hv => (hV v).2 (by simp [assignedAll, Node.assigned, hv])
  obtain ⟨k, t3, hleave, -, hat3, hrun⟩ := hat.here hrun hw'
  obtain ⟨D, hd3, hr3, hext3, hrest⟩ := hs.midway htest hc hleave hVt hVb
  obtain ⟨_, w4, hinside, hw4, hrun⟩ := bind_accepted hrun hw'
  have hextD := ((hs.looping.within.grows.ext.trans htest.progress.grows.ext).trans hext3)
  obtain ⟨t4, B4, hat4, -, hdraws, hcloses, hstops⟩ := hbody.inScope hat3 hd3 hr3
    (fun h => (hsteady (hextD.strict.1 h)).2.2.2) hinside hw4
  obtain ⟨r, breaks, continues, hloops, hmidway⟩ := hrest t4 B4 hdraws hcloses
  obtain ⟨l, t5, hpop, herr5, hat5, hrun⟩ := hat4.here hrun hw'
  rw [popLoop_run hloops] at hpop
  cases hpop
  rw [rejected_run hat5.only herr5] at hrun
  obtain ⟨l', t6, hleave', -, hat6, hrun⟩ := hat5.here hrun hw'
  cases step with
  | none =>
    obtain rfl : z = none := by simpa using hz
    obtain ⟨rfl, rfl, rfl⟩ := hstep
    rw [loopStep_none hs.step] at hrun
    obtain ⟨t', hend, -, rfl⟩ := here_accepted hat6 hrun hw'
    obtain ⟨A', hA', hext⟩ := hmidway.outlines hs hr hV hleave' hend
    exact ⟨t', A', hat6.settles ((leads_endLoop _ _ _).holds _ _ _ hend), hA',
      (hext3.trans hdraws.progress.grows.ext).trans hext, fun r hr step' =>
        Stops.here hat.only hleave (((hstops r hr).mono hext).bind _), nofun⟩
  | some st =>
    obtain ⟨i, rfl⟩ := Option.isSome_iff_exists.1 hz
    have hrest := fun q => (loopStep_some hs.step : loopStep p l' k q position = _)
    rw [hrest] at hrun
    obtain ⟨_, t7, hmerge, -, hat7, hrun⟩ := hat6.here hrun hw'
    obtain ⟨B7, hd7, hr7, hext7, houtlines⟩ := hmidway.outlines_step ns hs hr hV
      (fun h => (hsteady h).1 rfl) hleave' hmerge
    obtain ⟨_, w8, hinside', hw8, hrun⟩ := bind_accepted hrun hw'
    have hext4 := (hextD.trans hdraws.progress.grows.ext).trans hext7
    obtain ⟨t8, B8, hat8, herr8, hdraws', -, hstops'⟩ := hstep.inScope hat7 hd7 hr7
      (fun h => (hsteady (hext4.strict.1 h)).2.2.1) hinside' hw8
    rw [rejected_run hat8.only herr8] at hrun
    obtain ⟨_, t9, hback, -, hat9, hrun⟩ := hat8.here hrun hw'
    obtain ⟨t', hend, -, rfl⟩ := here_accepted hat9 hrun hw'
    obtain ⟨A', hA', hext⟩ := houtlines t8 B8 hdraws' t9 t' hback hend
    have hext8 := (hext7.trans hdraws'.progress.grows.ext).trans hext
    refine ⟨t', A', hat9.settles ((leads_endLoop _ _ _).holds _ _ _ hend), hA',
      (hext3.trans hdraws.progress.grows.ext).trans hext8, fun r hr step' =>
        Stops.here hat.only hleave (((hstops r hr).mono hext8).bind _), fun r hr => ?_⟩
    -- The step stops after everything else of the loop is described.
    refine Stops.here hat.only hleave (Stops.after hinside (Stops.here hat4.only (popLoop_run hloops) ?_))
    refine Stops.congr ?_ (rejected_run hat5.only herr5)
    refine Stops.here hat5.only hleave' (Stops.congr ?_ (congrFun (hrest (some r)) _))
    exact Stops.here hat6.only hmerge (((hstops' r hr).mono hext).bind _)

end Loops

section WholeLoops

variable {ι : Type} {name : String} {init : Run ι} {cond : Option (ι → Run (Option Value))}
  {step body : Option (ι → Run Unit)} {i : ι}

theorem loop_eq : loop name init cond step body position = (do
    here openScope
    let i ← init
    (do
      if ← here rejected then return ()
      let p ← here (startLoop name step.isSome position)
      testThen name (cond.map (· i)) (fun c => loopRest p c (step.map (· i)) (body.map (· i)) position) position)
    here closeScope : Run Unit) := by
  cases cond <;> rfl

instance [StickyRun init] [∀ i, StickyPart (cond.map (· i))] [∀ i, StickyPart (step.map (· i))]
    [∀ i, StickyPart (body.map (· i))] : StickyRun (loop name init cond step body position) := by
  rw [loop_eq]
  infer_instance

/-- The descriptions that stop within a loop, given those that stop within its parts. -/
inductive LoopStop (name : String) (init : Run ι) (cond : Option (ι → Run (Option Value)))
    (step body : Option (ι → Run Unit)) (i : ι) (position : Position) (Ci : Set (Run ι))
    (Ct : Set (Run (Option Value))) (Cb Cs : Set (Run Unit)) : Run Unit → Prop
  | init (r : Run ι) (hr : r ∈ Ci) (cond : Option (ι → Run (Option Value))) (step body : Option (ι → Run Unit)) :
    LoopStop name init _ _ _ i position Ci Ct Cb Cs (loop name r cond step body position)
  | test (r : ι → Run (Option Value)) (hr : r i ∈ Ct) (body : Option (ι → Run Unit)) :
    LoopStop name init cond step _ i position Ci Ct Cb Cs (loop name init (some r) step body position)
  | body (r : ι → Run Unit) (hr : r i ∈ Cb) :
    LoopStop name init cond step body i position Ci Ct Cb Cs (loop name init cond step (some r) position)
  | step (r : ι → Run Unit) (hr : r i ∈ Cs) :
    LoopStop name init cond step body i position Ci Ct Cb Cs (loop name init cond (some r) body position)

variable (position name cond step body) in
theorem reads_loop {Ci : Set (Run ι)} {Ct : Set (Run (Option Value))} {Cb Cs : Set (Run Unit)}
    {is ts bs ns : List Node} {c : Option Nat} {sc4 : Scope} [StickyRun init] [∀ i, StickyPart (cond.map (· i))]
    [∀ i, StickyPart (step.map (· i))] [∀ i, StickyPart (body.map (· i))]
    (hinit : ReadsFrom (put w s.inner) s.inner init Ci sc is sc1 i)
    (htest : TestReads (cond.map (· i)) Ct sc1 ts c sc2) (hbody : PartReads (body.map (· i)) Cb sc2 bs sc3)
    (hstep : PartReads (step.map (· i)) Cs sc3 ns sc4) :
    ReadsFrom w s (loop name init cond step body position)
      {r | LoopStop name init cond step body i position Ci Ct Cb Cs r} sc
      (is ++ [.loop ts c step.isSome ns bs]) sc4 () := by
  intro A u w' hat hd hr hsteady hrun hw'
  simp only [steadyAll_append] at hsteady
  rw [loop_eq] at hrun
  obtain ⟨_, s0, hopen, -, hat0, hrun⟩ := hat.here hrun hw'
  cases hopen
  obtain ⟨i', w1, hinit1, hw1, hrun⟩ := bind_accepted hrun hw'
  obtain ⟨rfl, s1, A1, hat1, hdraws1, hstops1⟩ := hinit A i' w1 hat0 hd.inner hr.inner
    (fun h => (hsteady h).1) hinit1 hw1
  have hr1 := hdraws1.progress.ready
  have herr1 := hat1.not_rejected hw1
  obtain ⟨_, w5, hloop, hw5, hrun⟩ := bind_accepted hrun hw'
  rw [rejected_run hat1.only herr1] at hloop
  obtain ⟨p, t1, hstart, -, hat2, hloop⟩ := hat1.here hloop hw5
  rw [← Option.isSome_map (f := (· i'))] at hstart
  obtain ⟨b, x, z, B, hz, hs⟩ := startLoop_ok
    (· ∈ assignedAll [Node.loop ts c (step.map (· i')).isSome ns bs]) hstart hdraws1.progress.drawn hr1
  have hextB := (hdraws1.progress.grows.ext).trans hs.looping.within.grows.ext
  have hloopSteady : A.strict → (Node.loop ts c (step.map (· i')).isSome ns bs).Steady := fun h => by
    rw [Option.isSome_map]
    exact (hsteady h).2.1
  obtain ⟨ref, w2, t2, B2, hat3, hdraws2, hchecked, hrest, hstops2, hafter⟩ := htest.testThen hat2
    hs.looping.within.drawn hs.ready (fun h => (hloopSteady (hextB.strict.1 h)).2.1) hloop hw5
  obtain ⟨s2, A2, hat5, houtlines, hext2, hstops3, hstops4⟩ := reads_loopRest hs hz hr1
    (fun v => Iff.rfl) hdraws2 hchecked hat3 hbody hstep
    (fun h => hloopSteady (hdraws1.progress.grows.ext.strict.1 h)) hrest hw5
  obtain ⟨t', hclose, -, rfl⟩ := here_accepted hat5 hrun hw'
  have hdraws := houtlines.scoped hdraws1 hd hclose
  rw [Option.isSome_map] at hdraws hstart
  refine ⟨rfl, t', A2, hat5.settles (leads_closeScope.holds _ _ _ hclose), hdraws, ?_⟩
  -- What stops after the initial part stops in the scope of the loop.
  have hinside : ∀ {α : Type} {f : ι → Run α}, Stops (f i') w1 A2 → Stops (here openScope >>= fun _ => init >>= f) w A2 :=
    fun hstop => Stops.here hat.only (openScope_run s) (Stops.after hinit1 hstop)
  rintro _ (⟨r, hr, cond, step, body⟩ | ⟨r, hr, body⟩ | ⟨r, hr⟩ | ⟨r, hr⟩)
  · exact Stops.here hat.only (openScope_run s)
      (((hstops1 r hr).mono ((hs.looping.within.grows.ext.trans hdraws2.progress.grows.ext).trans hext2)).bind _)
  · rw [loop_eq]
    refine hinside (Stops.bind (Stops.congr ?_ (rejected_run hat1.only herr1)) _)
    exact Stops.here hat1.only hstart ((hstops2 (r i') hr _).mono hext2)
  · rw [loop_eq]
    refine hinside (Stops.bind (Stops.congr ?_ (rejected_run hat1.only herr1)) _)
    exact Stops.here hat1.only hstart (hafter _ _ (hstops3 (r i') hr _))
  · cases step with
    | none =>
      obtain ⟨rfl, -⟩ := hstep
      cases hr
    | some q =>
      rw [loop_eq]
      refine hinside (Stops.bind (Stops.congr ?_ (rejected_run hat1.only herr1)) _)
      exact Stops.here hat1.only hstart (hafter _ _ (hstops4 (r i') hr))

end WholeLoops

/-! ## Loops of scripts -/

/-- A description for which the function has to be open. -/
def whenReady (name : String) (position : Position) (x : Run Unit) : Run Unit := do
  if ← here (attempt false do ready name position; return true) then x

theorem reads_whenReady {x : Run Unit} [StickyRun x] (h : ReadsFrom w s x C sc nodes sc' ()) :
    ReadsFrom w s (whenReady name position x) {c | ∃ y ∈ C, c = whenReady name position y} sc nodes sc' () := by
  intro A u w' hat hd hr hsteady hrun hw'
  obtain ⟨b, t, hready, herr, -, hrun⟩ := hat.here hrun hw'
  obtain ⟨rfl, rfl⟩ : b = true ∧ t = s := by
    have h := ready_ok (attempt_ok hready herr)
    obtain ⟨rfl, rfl⟩ := Attempt.pure_ok h
    exact ⟨rfl, rfl⟩
  have hput : put w t = w := by rw [put, ← hat.only]
  rw [if_pos rfl, hput] at hrun
  obtain ⟨-, s', A', hat', hdraws, hstops⟩ := h A u w' hat hd hr hsteady hrun hw'
  refine ⟨rfl, s', A', hat', hdraws, ?_⟩
  rintro c ⟨y, hy, rfl⟩
  refine Stops.here hat.only hready ?_
  rw [if_pos rfl, hput]
  exact hstops y hy

instance {α γ : Type} (f : γ → Run α) : StickyPart (Option.map f none) :=
  ⟨nofun⟩

instance {α γ : Type} (f : γ → Run α) (x : γ) [h : StickyRun (f x)] :
    StickyPart (Option.map f (some x)) :=
  ⟨fun _ hr => Option.some.inj hr ▸ h⟩

theorem map_const_apply (p : Option α) : (p.map fun x (_ : Unit) => x).map (· ()) = p := by
  cases p <;> rfl

instance {α : Type} (p : Option (Run α)) [StickyPart p] (i : Unit) :
    StickyPart ((p.map fun x (_ : Unit) => x).map (· i)) := by
  rwa [map_const_apply]

instance (p : Option (Run Unit)) [h : StickyPart p] : StickyRun (p.getD (pure ())) := by
  cases p with
  | none => exact stickyRun_of_tame (pure ())
  | some r => exact h.sticky r rfl

section ScriptLoops

variable {init step body : Option (Run Unit)} {test : Option (Run (Option Value))} [StickyPart init]
  [StickyPart step] [StickyPart body] [StickyPart test] {Ci Cb Cs : Set (Run Unit)}
  {Ct : Set (Run (Option Value))} {is ts bs ns : List Node} {c : Option Nat} {sc4 : Scope}

theorem reads_pure (sc : Scope) : Reads (pure ()) ∅ sc [] sc () := by
  intro w s A u w' hat hd hr _ hrun _
  cases hrun
  exact ⟨rfl, s, A, hat, draws_nil hd hr, nofun⟩

omit [StickyPart init] in
theorem PartReads.getD (h : PartReads init Ci sc is sc1) : Reads (init.getD (pure ())) Ci sc is sc1 () := by
  cases init with
  | none =>
    obtain ⟨rfl, rfl, rfl⟩ := h
    exact reads_pure sc1
  | some r => exact h

theorem reads_whileLoop (htest : TestReads test Ct sc ts c sc1) (hbody : PartReads body Cb sc1 bs sc2) :
    Reads (whileLoop test body position) ({r | ∃ q ∈ Ct, r = whileLoop (some q) body position} ∪
      {r | ∃ q ∈ Cb, r = whileLoop test (some q) position}) sc [.loop ts c false [] bs] sc2 () := by
  intro w s
  have hloop := reads_loop position "while" _ none _ (w := w) (s := s)
    (reads_pure sc _ _) ((map_const_apply test).symm ▸ htest) ((map_const_apply body).symm ▸ hbody)
    ⟨rfl, rfl, rfl⟩
  refine (reads_whenReady hloop).mono ?_
  rintro _ (⟨q, hq, rfl⟩ | ⟨q, hq, rfl⟩)
  · exact ⟨_, .test (fun _ => q) hq _, rfl⟩
  · exact ⟨_, .body (fun _ => q) hq, rfl⟩

theorem reads_forLoop (hinit : PartReads init Ci sc is sc1) (htest : TestReads test Ct sc1 ts c sc2)
    (hbody : PartReads body Cb sc2 bs sc3) (hstep : PartReads step Cs sc3 ns sc4) :
    Reads (forLoop init test step body position) ({r | ∃ q ∈ Ci, r = forLoop (some q) test step body position} ∪
      {r | ∃ q ∈ Ct, r = forLoop init (some q) step body position} ∪
      {r | ∃ q ∈ Cs, r = forLoop init test (some q) body position} ∪
      {r | ∃ q ∈ Cb, r = forLoop init test step (some q) position}) sc
      (is ++ [.loop ts c step.isSome ns bs]) sc4 () := by
  intro w s
  have hloop := reads_loop position "for" _ _ _ (w := w) (s := s) (hinit.getD _ _)
    ((map_const_apply test).symm ▸ htest) ((map_const_apply body).symm ▸ hbody)
    ((map_const_apply step).symm ▸ hstep)
  rw [Option.isSome_map] at hloop
  refine (reads_whenReady hloop).mono ?_
  rintro _ (((⟨q, hq, rfl⟩ | ⟨q, hq, rfl⟩) | ⟨q, hq, rfl⟩) | ⟨q, hq, rfl⟩)
  · exact ⟨_, .init q hq _ _ _, rfl⟩
  · exact ⟨_, .test (fun _ => q) hq _, rfl⟩
  · exact ⟨_, LoopStop.step (fun _ => q) hq, rfl⟩
  · exact ⟨_, .body (fun _ => q) hq, rfl⟩

/-- What follows the body of a loop that checks its condition after each round. -/
def doRest (p : LoopPlan) (test : Option (Run (Option Value))) (position : Position) : Run Unit := do
  let l ← here (popLoop p.loop)
  (do
    if ← here rejected then return ()
    let l ← here (leaveDoBody l position)
    testThen "do-while" test (fun c => here (endDo p l c position)) position)
  here closeScope

/-- A loop that checks its condition after each round. -/
def doLoop (body : Option (Run Unit)) (test : Option (Run (Option Value))) (position : Position) : Run Unit := do
  here openScope
  let p ← here (startDo position)
  inScope body
  doRest p test position

omit [StickyPart body] [StickyPart test] in
theorem doWhile_eq : doWhile body test position = whenReady "do-while" position (doLoop body test position) := by
  cases test <;> rfl

instance (p : LoopPlan) : StickyRun (doRest p test position) := by
  unfold doRest
  infer_instance

instance : StickyRun (doLoop body test position) := by
  unfold doLoop
  infer_instance

theorem reads_doLoop (hbody : PartReads body Cb sc bs sc1) (htest : TestReads test Ct sc1 ts c sc2) :
    Reads (doLoop body test position) ({r | ∃ q ∈ Cb, r = doLoop (some q) test position} ∪
      {r | ∃ q ∈ Ct, r = doLoop body (some q) position}) sc [.doLoop bs ts c] sc2 () := by
  intro w s A u w' hat hd hr hsteady hrun hw'
  obtain ⟨_, s0, hopen, -, hat0, hrun⟩ := hat.here hrun hw'
  cases hopen
  obtain ⟨p, t1, hstart, -, hat1, hrun⟩ := hat0.here hrun hw'
  obtain ⟨B1, hd1, hr1, hext1, hrest⟩ := draws_doLoop (u := ()) hstart bs ts c hd hr
  obtain ⟨_, w2, hinside, hw2, hrun⟩ := bind_accepted hrun hw'
  obtain ⟨t2, B2, hat2, -, hdraws2, hcloses, hstops2⟩ := hbody.inScope hat1 hd1 hr1
    (fun h => (hsteady (hext1.strict.1 h)).1.1) hinside hw2
  obtain ⟨l, t3, hpop, herr3, hat3, hrun⟩ := hat2.here hrun hw'
  obtain ⟨_, w5, hloop, hw5, hrun⟩ := bind_accepted hrun hw'
  rw [rejected_run hat3.only herr3] at hloop
  obtain ⟨l', t4, hleave, -, hat4, hloop⟩ := hat3.here hloop hw5
  obtain ⟨B4, hd4, hr4, hext4, hrest⟩ := hrest t2 B2 hdraws2 hcloses l t3 l' t4 hpop hleave
  have hextB := (hext1.trans hdraws2.progress.grows.ext).trans hext4
  obtain ⟨ref, w4, t5, B5, hat5, hdraws5, hchecked, hend, hstops5, -⟩ := htest.testThen hat4 hd4 hr4
    (fun h => (hsteady (hextB.strict.1 h)).1.2) hloop hw5
  obtain ⟨t6, hend', -, rfl⟩ := here_accepted hat5 hend hw5
  have hat6 := hat5.settles ((leads_endDo _ _ _ _).holds _ _ _ hend')
  obtain ⟨t', hclose, -, rfl⟩ := here_accepted hat6 hrun hw'
  obtain ⟨A', hA', hext⟩ := hrest t5 B5 hdraws5 ref t6 t' hchecked hend' hclose
  refine ⟨rfl, t', A', hat6.settles (leads_closeScope.holds _ _ _ hclose), hA', ?_⟩
  have hext5 := (hext4.trans hdraws5.progress.grows.ext).trans hext
  rintro _ (⟨q, hq, rfl⟩ | ⟨q, hq, rfl⟩)
  · refine Stops.here hat.only (openScope_run s) (Stops.here hat0.only hstart ?_)
    exact ((hstops2 q hq).mono hext5).bind _
  · refine Stops.here hat.only (openScope_run s) (Stops.here hat0.only hstart (Stops.after hinside ?_))
    refine Stops.here hat2.only hpop (Stops.bind (Stops.congr ?_ (rejected_run hat3.only herr3)) _)
    exact Stops.here hat3.only hleave ((hstops5 q hq _).mono hext)

theorem reads_doWhile (hbody : PartReads body Cb sc bs sc1) (htest : TestReads test Ct sc1 ts c sc2) :
    Reads (doWhile body test position) ({r | ∃ q ∈ Cb, r = doWhile (some q) test position} ∪
      {r | ∃ q ∈ Ct, r = doWhile body (some q) position}) sc [.doLoop bs ts c] sc2 () := by
  intro w s
  simp only [doWhile_eq]
  refine (reads_whenReady (reads_doLoop hbody htest w s)).mono ?_
  rintro _ (⟨q, hq, rfl⟩ | ⟨q, hq, rfl⟩)
  · exact ⟨_, .inl ⟨q, hq, rfl⟩, rfl⟩
  · exact ⟨_, .inr ⟨q, hq, rfl⟩, rfl⟩

end ScriptLoops

end Codesmith.Script
