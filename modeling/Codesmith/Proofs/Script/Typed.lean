import Codesmith.Script.Exec
import Codesmith.Proofs.Describe.Accepted

/-!
# Finished functions keep their registers normal

However a script describes a function, the code that comes of it is that of a typed chart. So at every
step of every run each register holds a word that is normal for the type of its value, and what is
returned can be given to the host program without loss.
-/

namespace Codesmith

/-- The code is what a generator made of a typed chart. -/
structure Code.MadeBy (c : Code) (g : Gen.Generator) (sig : Signature) : Prop where
  program : ∃ g₀ chart, Gen.Generator.Describes g₀ sig chart ∧ g₀.finalize = .ok (g, .ok c.program)
  sig : c.sig = sig

def Code.Made (c : Code) (sig : Signature) : Prop :=
  ∃ g, c.MadeBy g sig

namespace Describe

variable {α β : Type}
variable {s s' : Sketch} {r : Except FinishError Code} {p : Position}

/-! ## Finishing -/

/-- The last step of finishing a function: the generator makes the code. -/
def compileCode : Edit (Except FinishError Code) := do
  let s ← get
  let (g, result) ← s.gen.finalize
  set { s with gen := g }
  match result with
  | .error e => return .error (.failed s.id.name e)
  | .ok program =>
    match s.profileError with
    | some e => return .error (.profile e)
    | none => return .ok ⟨s.id.name, s.sig, g.backend, program⟩

theorem compileCode_ok (h : compileCode s = .ok (r, s')) : s'.sig = s.sig ∧ s'.finished = s.finished ∧
      ∀ c, r = .ok c → s.gen.Typed s.sig → c.MadeBy s'.gen s.sig := by
  replace h := get_ok h
  obtain ⟨⟨g, result⟩, t, hlift, h⟩ := bind_ok h
  obtain ⟨hfinal, ht⟩ := lift_ok hlift
  subst t
  obtain ⟨_, t, hset, h⟩ := bind_ok h
  cases hset
  split at h
  · cases h
    exact ⟨rfl, rfl, fun _ => nofun⟩
  rename_i program
  cases hprofile : s.profileError with
  | some e =>
    rw [hprofile] at h
    cases h
    exact ⟨rfl, rfl, fun _ => nofun⟩
  | none =>
    rw [hprofile] at h
    cases h
    refine ⟨rfl, rfl, fun c hc ht => ?_⟩
    cases hc
    obtain hb | ⟨chart, hd⟩ := ht
    · obtain ⟨g', e, hfail⟩ := hb.finalize
      cases hfail.symm.trans hfinal
    · exact ⟨⟨_, chart, hd, hfinal⟩, rfl⟩

/-- A finished function cannot be used anymore, and its code comes from a typed chart. -/
theorem finish_ok (h : finish p s = .ok (r, s')) : s'.sig = s.sig ∧ s'.finished = true ∧
      ∀ c, r = .ok c → s.Lost ∨ s.Sane → c.MadeBy s'.gen s.sig := by
  replace h := get_ok h
  dsimp only at h
  split at h
  · rename_i hfin
    cases h
    exact ⟨rfl, hfin, fun _ => nofun⟩
  rename_i hfin
  have htyped : s.Lost ∨ s.Sane → s.gen.Typed s.sig := fun hs => by
    obtain (h | h) | h := hs
    · exact absurd h hfin
    · exact .inl h
    · exact .inr h.gen
  obtain ⟨_, t, hset, h⟩ := bind_ok h
  cases hset
  cases he : s.error with
  | some e =>
    rw [he] at h
    cases h
    exact ⟨rfl, rfl, fun _ => nofun⟩
  | none => ?_
  rw [he] at h
  obtain ⟨ended, _, hended, h⟩ := bind_ok h
  obtain ⟨-, rfl⟩ := lift_ok hended
  dsimp only at h
  split at h
  · obtain ⟨_, t, hend, h⟩ := bind_ok h
    cases hend
    obtain ⟨hsig, hfinished, hmade⟩ := compileCode_ok h
    refine ⟨hsig, hfinished, fun c hc hs => hmade c hc ?_⟩
    obtain hb | ⟨chart, hd⟩ := htyped hs
    · have hb := hb.notes fun _ _ _ _ => s.gen.notes_setPosition (some p)
      exact .inl (hb.notes fun _ _ _ h => h.terminate _)
    · exact (hd.setPosition _).terminate List.not_mem_nil
  · obtain ⟨hsig, hfinished, hmade⟩ := compileCode_ok h
    exact ⟨hsig, hfinished, fun c hc hs => hmade c hc (htyped hs)⟩

/-- Nothing is made of a function of which a call was rejected. -/
theorem finish_rejected (h : finish p s = .ok (r, s')) (herr : s.error.isSome = true) :
    s'.error.isSome = true := by
  replace h := get_ok h
  dsimp only at h
  split at h
  · cases h
    exact herr
  obtain ⟨e, he⟩ := Option.isSome_iff_exists.1 herr
  obtain ⟨_, t, hset, h⟩ := bind_ok h
  cases hset
  rw [he] at h
  cases h
  exact herr

end Describe

namespace Script

open Describe

variable {α β : Type} {sig : Signature}
variable {p : Prop} {q : α → Prop} {w w' : Workspace Env} {x r : Run α} {f : α → Run β} {i : Nat}
  {body : List Stmt} {position : Position} {ts : List Ty} {s s' : Sketch} {config : Config} {name : String}
  {code : Code}

/-! ## Workspaces -/

/-- The function that is described is lost or sane and something else holds, and code that was finished
comes from a typed chart. -/
structure Intact (sig : Signature) (p : Prop) (w : Workspace Env) : Prop where
  first : ∃ s, w.sketches[0]? = some s ∧ s.sig = sig ∧ (s.Lost ∨ s.Sane ∧ p)
  code : ∀ c, w.own.code = some c → c.Made sig

theorem Intact.mono {q : Prop} (h : Intact sig p w) (hpq : p → q) : Intact sig q w := by
  obtain ⟨s, hs, hsig, hs'⟩ := h.first
  exact ⟨⟨s, hs, hsig, hs'.imp_right fun ⟨hsane, hp⟩ => ⟨hsane, hpq hp⟩⟩, h.code⟩

/-- A call of the function that is described was rejected. -/
def Rejected (w : Workspace Env) : Prop :=
  ∃ s, w.sketches[0]? = some s ∧ s.error.isSome = true

/-- The function that is described and the code that was finished are the same in two workspaces. -/
structure Untouched (w w' : Workspace Env) : Prop where
  first : w'.sketches[0]? = w.sketches[0]?
  code : w'.own.code = w.own.code

theorem Untouched.intact (h : Untouched w w') (hw : Intact sig p w) : Intact sig p w' :=
  ⟨h.first ▸ hw.first, h.code ▸ hw.code⟩

theorem Untouched.rejected (h : Untouched w w') (hw : Rejected w) : Rejected w' := by
  rw [Rejected, h.first]
  exact hw

/-- A description that forgets no rejection. -/
def Sticky (r : Run α) : Prop :=
  ∀ w, Rejected w → Rejected (r w).2

theorem Sticky.bind (hx : Sticky x) (hf : ∀ a, Sticky (f a)) : Sticky (x >>= f) := by
  intro w hw
  rw [bind_run]
  have hx := hx w hw
  revert hx
  cases x w with
  | mk res w' =>
    cases res with
    | ok a => exact fun hw' => hf a w' hw'
    | error e => exact id

/-- What a description makes of a workspace that is intact is intact again, and rejections stay. -/
structure RunKeeps (sig : Signature) (r : Run α) (p : Prop) (q : α → Prop) : Prop where
  intact : ∀ w, Intact sig p w → match r w with
    | (.ok a, w') => Intact sig (q a) w'
    | (.error _, w') => Intact sig True w'
  sticky : Sticky r

/-- A description that keeps workspaces intact, and with them what is known besides. -/
class TameRun (sig : Signature) (r : Run α) : Prop where
  keeps : ∀ p, RunKeeps sig r p fun _ => p

theorem RunKeeps.bind {r : β → Prop} (hx : RunKeeps sig x p q) (hf : ∀ a, RunKeeps sig (f a) (q a) r) :
    RunKeeps sig (x >>= f) p r := by
  refine ⟨fun w hw => ?_, hx.sticky.bind fun a => (hf a).sticky⟩
  rw [bind_run]
  have hx := hx.intact w hw
  revert hx
  cases x w with
  | mk res w' =>
    cases res with
    | ok a => exact fun hw' => (hf a).intact w' hw'
    | error e => exact id

theorem runKeeps_pure {a : α} (h : p → q a) : RunKeeps sig (pure a) p q :=
  ⟨fun _ hw => hw.mono h, fun _ hw => hw⟩

theorem RunKeeps.mono {p' : Prop} {q' : α → Prop} (h : RunKeeps sig r p q) (hp : p' → p)
    (hq : ∀ a, q a → q' a) : RunKeeps sig r p' q' := by
  refine ⟨fun w hw => ?_, h.sticky⟩
  have := h.intact w (hw.mono hp)
  revert this
  cases r w with
  | mk res w' =>
    cases res with
    | ok a => exact fun hw' => hw'.mono (hq a)
    | error e => exact id

/-- A description that does nothing to the function. -/
theorem tameRun_of_untouched (h : ∀ w s, w.sketches[0]? = some s → Untouched w (r w).2) : TameRun sig r := by
  refine ⟨fun p => ⟨fun w hw => ?_, fun w hw => hw.elim fun s hs => (h w s hs.1).rejected hw⟩⟩
  obtain ⟨s, hs, -⟩ := hw.first
  have hw := (h w s hs).intact hw
  revert hw
  cases r w with
  | mk res w' =>
    cases res with
    | ok a => exact id
    | error e => exact fun hw => hw.mono fun _ => trivial

theorem TameRun.bind (hx : TameRun sig x) {q : β → Prop} (hf : ∀ a, RunKeeps sig (f a) p q) :
    RunKeeps sig (x >>= f) p q :=
  (hx.keeps p).bind hf

instance tameRun_pure (a : α) : TameRun sig (pure a) :=
  ⟨fun _ => runKeeps_pure id⟩

instance tameRun_bind (x : Run α) (f : α → Run β) [hx : TameRun sig x] [hf : ∀ a, TameRun sig (f a)] :
    TameRun sig (x >>= f) :=
  ⟨fun p => (hx.keeps p).bind fun a => (hf a).keeps p⟩

instance tameRun_throw (e : Fault) : TameRun sig (throw e : Run α) :=
  tameRun_of_untouched fun _ _ _ => ⟨rfl, rfl⟩

instance (c : Prop) [Decidable c] (x y : Run α) [TameRun sig x] [TameRun sig y] :
    TameRun sig (if c then x else y) := by
  split <;> infer_instance

instance : TameRun sig (get : Run (Workspace Env)) :=
  tameRun_of_untouched fun _ _ _ => ⟨rfl, rfl⟩

/-- An edit of the function that is described. -/
theorem runKeeps_here {e : Edit α} (h : Keeps e p q) : RunKeeps sig (here e) p q := by
  constructor
  · intro w hw
    obtain ⟨s, hs, hsig, hs'⟩ := hw.first
    rw [here, edit_run, hs]
    dsimp only
    cases he : e s with
    | error f => exact hw.mono fun _ => trivial
    | ok r =>
      obtain ⟨a, s'⟩ := r
      have hk := h s a s' he
      have hlt := (Array.getElem?_eq_some_iff.1 hs).1
      refine ⟨⟨s', by simp [hlt], hk.sig.trans hsig, hs'.elim (fun hl => .inl (hk.lost hl)) fun hl => ?_⟩,
        hw.code⟩
      exact hk.sane hl.1 hl.2
  · rintro w ⟨s, hs, herr⟩
    rw [here, edit_run, hs]
    dsimp only
    cases he : e s with
    | error f => exact ⟨s, hs, herr⟩
    | ok r =>
      have hlt := (Array.getElem?_eq_some_iff.1 hs).1
      exact ⟨r.2, by simp [hlt], (h s r.1 r.2 he).error herr⟩

theorem untouched_edit (hi : i ≠ 0) (e : Edit α) (w : Workspace Env) :
    Untouched w ((edit i e : Run α) w).2 := by
  rw [edit_run]
  cases w.sketches[i]? with
  | none => exact ⟨rfl, rfl⟩
  | some t =>
    dsimp only
    cases e t with
    | error f => exact ⟨rfl, rfl⟩
    | ok r => exact ⟨Array.getElem?_setIfInBounds_ne hi, rfl⟩

instance tameRun_edit (i : Nat) (e : Edit α) [he : Tame e] : TameRun sig (edit i e) := by
  by_cases hi : i = 0
  · subst hi
    exact ⟨fun p => runKeeps_here (he.frame p)⟩
  · exact tameRun_of_untouched fun w _ _ => untouched_edit hi e w

instance tameRun_here (e : Edit α) [Tame e] : TameRun sig (here e) :=
  tameRun_edit 0 e

instance (v : Value) (e : Edit α) [Tame e] : TameRun sig (on v e) :=
  tameRun_edit v.owner.number e

/-! ## Constructs -/

/-- A description that keeps what is known, given that something is. -/
def TameWhen (sig : Signature) (g : Prop) (r : Run α) : Prop :=
  ∀ p, (p → g) → RunKeeps sig r p fun _ => p

theorem TameRun.when (h : TameRun sig r) {g : Prop} : TameWhen sig g r :=
  fun p _ => h.keeps p

section Constructs

variable {yes no step body : Option (Run Unit)} {g p : Prop} (position : Position)
variable {ι : Type} {init : Run ι} {cond : Option (ι → Run (Option Value))}
  {test : Option (Run (Option Value))} {each : Option (Value → Run Unit)}

theorem tameWhen_inScope (hbody : ∀ r ∈ body, TameWhen sig g r) : TameWhen sig g (inScope body) := by
  cases body with
  | none => exact (tameRun_pure ()).when
  | some r => exact fun p hp => (tameRun_here openScope).bind fun _ =>
      RunKeeps.bind (hbody r rfl p hp) fun _ => (tameRun_here closeScope).keeps p

theorem runKeeps_part (k : Conditional) (b : BlockId) (hyes : ∀ r ∈ yes, TameRun sig r) :
    RunKeeps sig (part k b yes position) (k.Inner ∧ p) fun k' => k'.Inner ∧ p :=
  (tameRun_here (enterPart k b)).bind fun _ => RunKeeps.bind
    (tameWhen_inScope (g := True) (fun r hr => (hyes r hr).when) _ fun _ => trivial) fun _ =>
      runKeeps_here ((keeps_leavePart k position).and p)

theorem tameRun_ifElse (c : Option Value) (hyes : ∀ r ∈ yes, TameRun sig r)
    (hno : ∀ r ∈ no, TameRun sig r) : TameRun sig (ifElse c yes no position) := by
  constructor
  intro p
  unfold ifElse
  refine RunKeeps.bind (runKeeps_here (((keeps_startIf c no.isSome position).and p).mono
    (fun h => ⟨trivial, h⟩) fun _ _ => id)) fun r => ?_
  cases r with
  | none => exact runKeeps_pure And.right
  | some k =>
    refine RunKeeps.bind ((runKeeps_part position k k.yes hyes).mono (fun h => ⟨h.1 k rfl, h.2⟩)
      fun _ => id) fun k' => ?_
    have hend : ∀ k : Conditional, RunKeeps sig (here (endIf k)) (k.Inner ∧ p) fun _ => p := fun k =>
      ((tameRun_here (endIf k)).keeps _).mono id fun _ => And.right
    split
    · exact (tameRun_here (restore k'.before)).bind fun _ =>
        RunKeeps.bind (runKeeps_part position k' k'.no hno) hend
    · exact hend k'

/-! ### Loops -/

theorem runKeeps_loopStep (plan : LoopPlan) (l : Loop) (h : HeadState)
    (hstep : ∀ r ∈ step, TameWhen sig g r) (hp : p → g) :
    RunKeeps sig (loopStep plan l h step position) (l.Inner ∧ p) fun _ => p := by
  have hend : RunKeeps sig (here (endLoop plan l h)) p fun _ => p := (tameRun_here (endLoop plan l h)).keeps p
  unfold loopStep
  split
  · exact hend.mono And.right fun _ => id
  refine TameRun.bind inferInstance fun _ => RunKeeps.bind
    (tameWhen_inScope hstep _ fun h => hp h.2) fun _ => TameRun.bind inferInstance fun failed => ?_
  split
  · exact runKeeps_pure And.right
  · exact RunKeeps.bind (runKeeps_here ((keeps_leaveStep l position).and p)) fun _ =>
      hend.mono And.right fun _ => id

theorem runKeeps_loopRest (plan : LoopPlan) (c : Option Ref) (hstep : ∀ r ∈ step, TameWhen sig g r)
    (hbody : ∀ r ∈ body, TameWhen sig g r) (hp : p → g) :
    RunKeeps sig (loopRest plan c step body position) (plan.Inner ∧ p) fun _ => p := by
  have hhead : Keeps (leaveHead plan c position) (plan.Inner ∧ p) fun _ => plan.Inner ∧ p :=
    ((keeps_leaveHead plan c position).and p).mono id fun _ h _ => h
  unfold loopRest
  refine RunKeeps.bind (runKeeps_here hhead) fun h => RunKeeps.bind
    (tameWhen_inScope hbody _ fun h => hp h.2) fun _ => ?_
  refine RunKeeps.bind (runKeeps_here (((keeps_popLoop plan.loop).and p).mono
    (fun h => ⟨h.1.loop, h.2⟩) fun _ _ => id)) fun l => TameRun.bind inferInstance fun failed => ?_
  split
  · exact runKeeps_pure And.right
  · exact RunKeeps.bind (runKeeps_here ((keeps_leaveBody plan l position).and p)) fun l' =>
      runKeeps_loopStep position plan l' h hstep hp

theorem tameWhen_loop {good : ι → Prop} (name : String)
    (hinit : ∀ p, (p → g) → RunKeeps sig init p fun i => good i ∧ p)
    (hcond : ∀ r ∈ cond, ∀ i, TameWhen sig (good i) (r i)) {step body : Option (ι → Run Unit)}
    (hstep : ∀ r ∈ step, ∀ i, TameWhen sig (good i) (r i))
    (hbody : ∀ r ∈ body, ∀ i, TameWhen sig (good i) (r i)) :
    TameWhen sig g (loop name init cond step body position) := by
  have happly : ∀ {f : Option (ι → Run Unit)}, (∀ r ∈ f, ∀ i, TameWhen sig (good i) (r i)) →
      ∀ i, ∀ r ∈ f.map (· i), TameWhen sig (good i) r := by
    intro f hf i r hr
    obtain ⟨g, hg, rfl⟩ := Option.map_eq_some_iff.1 hr
    exact hf g hg i
  intro p hp
  unfold loop
  refine (tameRun_here openScope).bind fun _ => RunKeeps.bind (hinit p hp) fun i => ?_
  refine RunKeeps.bind (q := fun _ => p) ?_ fun _ => (tameRun_here closeScope).keeps p
  refine TameRun.bind inferInstance fun failed => ?_
  split
  · exact runKeeps_pure And.right
  refine RunKeeps.bind (runKeeps_here (((keeps_startLoop name step.isSome position).and
    (good i ∧ p)).mono (fun h => ⟨trivial, h⟩) fun _ _ => id)) fun plan => ?_
  have hrest := fun c => (runKeeps_loopRest (p := good i ∧ p) position plan c (happly hstep i)
    (happly hbody i) And.left).mono id fun _ => And.right
  cases cond with
  | none => exact hrest none
  | some test =>
    refine RunKeeps.bind (hcond test rfl i _ fun h => h.2.1) fun v => TameRun.bind inferInstance fun c => ?_
    cases c with
    | none => exact runKeeps_pure fun h => h.2.2
    | some ref => exact hrest (some ref)

theorem tameRun_loop (name : String) (hinit : TameRun sig init) (hcond : ∀ r ∈ cond, ∀ i, TameRun sig (r i))
    {step body : Option (ι → Run Unit)} (hstep : ∀ r ∈ step, ∀ i, TameRun sig (r i))
    (hbody : ∀ r ∈ body, ∀ i, TameRun sig (r i)) : TameRun sig (loop name init cond step body position) :=
  have hgood : ∀ p : Prop, (p → True) → RunKeeps sig init p fun _ => True ∧ p := fun p _ =>
    (hinit.keeps p).mono id fun _ h => ⟨trivial, h⟩
  ⟨fun p => tameWhen_loop position name hgood (fun r hr i => (hcond r hr i).when)
    (fun r hr i => (hstep r hr i).when) (fun r hr i => (hbody r hr i).when) p fun _ => trivial⟩

theorem tameRun_map {r : Option (Run α)} (h : ∀ x ∈ r, TameRun sig x) :
    ∀ f ∈ r.map fun x (_ : Unit) => x, ∀ i, TameRun sig (f i) := by
  intro f hf i
  obtain ⟨x, hx, rfl⟩ := Option.map_eq_some_iff.1 hf
  exact h x hx

theorem tameRun_none : ∀ f ∈ (none : Option (ι → Run Unit)), ∀ i, TameRun sig (f i) :=
  fun _ h => nomatch h

theorem tameRun_whileLoop (htest : ∀ r ∈ test, TameRun sig r) (hbody : ∀ r ∈ body, TameRun sig r) :
    TameRun sig (whileLoop test body position) := by
  have := tameRun_loop position "while" (tameRun_pure ()) (tameRun_map htest) tameRun_none (tameRun_map hbody)
  unfold whileLoop
  infer_instance

theorem tameRun_forLoop {init : Option (Run Unit)} (hinit : ∀ r ∈ init, TameRun sig r)
    (htest : ∀ r ∈ test, TameRun sig r) (hstep : ∀ r ∈ step, TameRun sig r)
    (hbody : ∀ r ∈ body, TameRun sig r) : TameRun sig (forLoop init test step body position) := by
  have hinit' : TameRun sig (init.getD (return ())) := by
    cases init with
    | none => exact tameRun_pure ()
    | some r => exact hinit r rfl
  have := tameRun_loop position "for" hinit' (tameRun_map htest) (tameRun_map hstep) (tameRun_map hbody)
  unfold forLoop
  infer_instance

theorem tameRun_doWhile (hbody : ∀ r ∈ body, TameRun sig r) (htest : ∀ r ∈ test, TameRun sig r) :
    TameRun sig (doWhile body test position) := by
  constructor
  intro p
  unfold doWhile
  refine TameRun.bind inferInstance fun go => ?_
  split
  swap
  · exact runKeeps_pure id
  refine (tameRun_here openScope).bind fun _ => RunKeeps.bind (runKeeps_here (((keeps_startDo
    position).and p).mono (fun h => ⟨trivial, h⟩) fun _ _ => id)) fun plan => ?_
  refine RunKeeps.bind (tameWhen_inScope (g := True) (fun r hr => (hbody r hr).when) _ fun _ => trivial)
    fun _ => ?_
  refine RunKeeps.bind (runKeeps_here (((keeps_popLoop plan.loop).and p).mono
    (fun h => ⟨h.1.loop, h.2⟩) fun _ _ => id)) fun l => ?_
  refine RunKeeps.bind (q := fun _ => p) ?_ fun _ => (tameRun_here closeScope).keeps p
  refine TameRun.bind inferInstance fun failed => ?_
  split
  · exact runKeeps_pure And.right
  refine RunKeeps.bind (runKeeps_here ((keeps_leaveDoBody l position).and p)) fun l' => ?_
  have hend : ∀ c, RunKeeps sig (here (endDo plan l' c position)) (l'.Inner ∧ p) fun _ => p := fun c =>
    (runKeeps_here ((keeps_endDo plan l' c position).and p)).mono id fun _ => And.right
  cases test with
  | none => exact hend none
  | some test =>
    refine (htest test rfl).bind fun v => TameRun.bind inferInstance fun c => ?_
    cases c with
    | none => exact runKeeps_pure And.right
    | some ref => exact hend (some ref)

theorem tameRun_applyTo (h : ∀ r ∈ each, ∀ v, TameRun sig (r v)) (v : Value) :
    TameRun sig (applyTo each v) := by
  cases each with
  | none => exact tameRun_throw _
  | some r => exact h r rfl v

instance (r : Run α) [TameRun sig r] : TameRun sig (some <$> r) := by
  rw [map_eq_pure_bind]
  infer_instance

section

variable (heach : ∀ r ∈ each, ∀ v, TameRun sig (r v))
include heach

theorem tameRun_forN (n : Operand) : TameRun sig (forN n each position) := by
  have hloop : ∀ count : Value, TameRun sig (loop "for-n"
      (here (do attempt (← invalid count.ty) (constant "for-n" count.ty (.ofInt 0) position)))
      (some fun i => some <$> here (compare .lt i (.value count) position))
      (some fun i => here (advance i (arith .add i (.ofInt 1) position) position))
      (some (applyTo each)) position) := by
    intro count
    refine tameRun_loop position _ inferInstance ?_ ?_ ?_
    · rintro _ ⟨⟩ i
      infer_instance
    · rintro _ ⟨⟩ i
      infer_instance
    · rintro _ ⟨⟩ i
      exact tameRun_applyTo heach i
  unfold forN
  refine @tameRun_bind _ _ _ _ _ inferInstance fun c => ?_
  cases c with
  | none => exact tameRun_pure ()
  | some count => exact hloop count

theorem tameRun_forRangePtr (first last : Option Value) :
    TameRun sig (forRangePtr first last each position) := by
  constructor
  intro p
  unfold forRangePtr
  refine RunKeeps.bind (runKeeps_here (((keeps_rangeOf first last position).and p).mono
    (fun h => ⟨trivial, h⟩) fun _ _ => id)) fun r => ?_
  split
  · exact runKeeps_pure And.right
  rename_i first' last' t
  -- The cursor is a pointer as the first element is.
  have hinit : ∀ p : Prop, (p → first'.ty.kind = .ptr) → RunKeeps sig (here (do
      let s ← get
      let ref := ((first'.var.bind fun id => s.vars[id]?).map Var.ref).getD noRef
      newVar first'.ty ref position)) p fun v => v.ty.kind = .ptr ∧ p := by
    intro p hp
    refine runKeeps_here (leads_get.bind fun s => (keeps_newVar _ _ position p).mono id ?_)
    rintro v - ⟨hv, h⟩
    exact ⟨hv ▸ hp h, h⟩
  refine RunKeeps.mono (tameWhen_loop position _ hinit ?_ ?_ ?_ _ fun h => h.1 _ rfl) id fun _ => And.right
  · rintro _ ⟨⟩ i
    exact TameRun.when inferInstance
  · rintro _ ⟨⟩ i p hp
    refine runKeeps_here ((leads_lift t.size).bind fun size => ?_)
    refine Keeps.bind (leads_get.bind fun s => (tame_invalid i.ty).bind fun x =>
      keeps_attempt (grants_ptrAdd hp _ _ _ _ _ _) id) fun x => ?_
    exact (tame_assign i _ position).frame p
  · rintro _ ⟨⟩ i
    exact (tameRun_applyTo heach i).when

theorem tameRun_forRange (first last : Option Value) : TameRun sig (forRange first last each position) := by
  refine tameRun_forRangePtr position ?_ first last
  rintro _ ⟨⟩ v
  have := tameRun_applyTo heach
  infer_instance

end

end Constructs

/-! ## Statements -/

theorem tameRun_modifyEnv {f : Env → Env} (hf : ∀ e, (f e).code = e.code) : TameRun sig (modifyEnv f) :=
  tameRun_of_untouched fun w _ _ => ⟨rfl, hf w.own⟩

instance (n : Name) : TameRun sig (lookup n) := by
  unfold lookup
  infer_instance

instance (n : Name) : TameRun sig (receiver n) := by
  have hrest : ∀ v : Option Value, TameRun sig (match v with
      | some v => pure v
      | none => throw .invalidAddress : Run Value) := fun v => by split <;> infer_instance
  unfold receiver
  infer_instance

instance (n : Name) (v : Value) : TameRun sig (bindName n v) :=
  tameRun_modifyEnv fun _ => rfl

instance (x : Term) : TameRun sig (term x) := by
  cases x <;> unfold term <;> infer_instance

instance tameRun_tell (e : Event) : TameRun sig (tell e) :=
  tameRun_modifyEnv fun _ => rfl

instance tameRun_record (stmt : String) (v : Option Value) : TameRun sig (record stmt v) := by
  have htold : ∀ stage, TameRun sig (modifyEnv fun e => { e with told := stage }) := fun _ =>
    tameRun_modifyEnv fun _ => rfl
  unfold record
  infer_instance

instance (stmt : String) : TameRun sig (recordConstruct stmt) := by
  unfold recordConstruct recordRefs
  infer_instance

instance (stmt : String) (n : Name) (v : Value) : TameRun sig (yields stmt n v) := by
  unfold yields
  infer_instance

instance (stem : Name) (i : Nat) (vs : List Value) : TameRun sig (bindAll stem i vs) := by
  induction vs generalizing i with
  | nil => exact tameRun_pure ()
  | cons v vs ih => exact tameRun_bind _ _

instance (op : BinaryOp) (v : Value) (x : Operand) (p : Position) :
    Tame (op.apply v x p) := by
  cases op <;> unfold BinaryOp.apply <;> infer_instance

instance (op : UnaryOp) (v : Value) (p : Position) : Tame (op.apply v p) := by
  cases op <;> unfold UnaryOp.apply <;> infer_instance

theorem tameRun_eachPart (n : Name) {body : Option (Run Unit)} (h : ∀ r ∈ body, TameRun sig r) :
    ∀ r ∈ eachPart n body, ∀ v, TameRun sig (r v) := by
  intro r hr v
  obtain ⟨b, hb, rfl⟩ := Option.map_eq_some_iff.1 hr
  have := h b hb
  infer_instance

theorem finish_run_error {f : Fault} (h : (here (finish position) : Run _) w = (.error f, w')) : w' = w := by
  rw [here, edit_run] at h
  split at h
  · cases h
    rfl
  · split at h
    · cases h
      rfl
    · cases h

theorem Intact.finish {r : Except FinishError Code} (hw : Intact sig p w)
    (h : (here (finish position) : Run _) w = (.ok r, w')) :
    Intact sig p w' ∧ ∀ c, r = .ok c → ∃ s, w'.sketches[0]? = some s ∧ c.MadeBy s.gen sig := by
  obtain ⟨s, hs, rfl, hs'⟩ := hw.first
  rw [here, edit_run, hs] at h
  dsimp only at h
  split at h
  · cases h
  rename_i r' s' hf
  cases h
  obtain ⟨hsig, hfin, hmade⟩ := finish_ok hf
  have hlt := (Array.getElem?_eq_some_iff.1 hs).1
  have hs1 : (w.sketches.setIfInBounds 0 s')[0]? = some s' := by simp [hlt]
  exact ⟨⟨⟨s', hs1, hsig, .inl (.inl hfin)⟩, hw.code⟩, fun c hc =>
    ⟨s', hs1, hmade c hc (hs'.imp_right And.left)⟩⟩

/-- Another function comes after those that are there. -/
theorem untouched_foreignArg (t : Ty) (hs : w.sketches[0]? = some s) : Untouched w (foreignArg t w).2 := by
  have hget : (get : Run (Workspace Env)) w = (.ok w, w) := rfl
  rw [foreignArg, bind_run, hget]
  dsimp only
  rw [bind_run]
  cases Sketch.start { w.own.config with profileError := none } w.sketches.size "other" ⟨[t], .void⟩ ⟨"new", 1⟩ with
  | error f => exact ⟨rfl, rfl⟩
  | ok r =>
    cases r with
    | error e => exact ⟨rfl, rfl⟩
    | ok s1 =>
      have hlt := (Array.getElem?_eq_some_iff.1 hs).1
      have hedit := untouched_edit hlt.ne' (Describe.arg 0 ⟨"arg", 1⟩) { w with sketches := w.sketches.push s1 }
      exact ⟨hedit.first.trans (by rw [Array.getElem?_push, if_neg hlt.ne]), hedit.code⟩

instance (t : Ty) : TameRun sig (foreignArg t) :=
  tameRun_of_untouched fun _ _ => untouched_foreignArg t

/-- What a statement finishes is code of a typed chart. -/
instance (position : Position) : TameRun sig (finalizeStmt position) := by
  refine ⟨fun p => ⟨fun w hw => ?_, fun w hw => ?_⟩⟩
  · rw [finalizeStmt, bind_run]
    cases hf : (here (finish position) : Run _) w with
    | mk r w' =>
      cases r with
      | error f =>
        rw [finish_run_error hf]
        exact hw.mono fun _ => trivial
      | ok r =>
        obtain ⟨hw', hmade⟩ := hw.finish hf
        refine (TameRun.bind (tameRun_record "finalize" none) fun _ => ?_).intact w' hw'
        cases r with
        | error e => exact (tameRun_tell _).keeps p
        | ok c =>
          refine RunKeeps.bind (q := fun _ => p) ⟨fun w hw => ⟨hw.first, fun c' hc => ?_⟩,
            fun _ hw => hw⟩ fun _ => (tameRun_tell _).keeps p
          cases hc
          obtain ⟨s, -, hs⟩ := hmade c rfl
          exact ⟨s.gen, hs⟩
  · obtain ⟨s, hs, herr⟩ := hw
    rw [finalizeStmt, bind_run, here, edit_run, hs]
    dsimp only
    cases hf : finish position s with
    | error f => exact ⟨s, hs, herr⟩
    | ok r =>
      obtain ⟨r, s'⟩ := r
      have hlt := (Array.getElem?_eq_some_iff.1 hs).1
      have hw' : Rejected { w with sketches := w.sketches.setIfInBounds 0 s' } :=
        ⟨s', by simp [hlt], finish_rejected hf herr⟩
      refine Sticky.bind ((tameRun_record "finalize" none : TameRun sig _).keeps True).sticky
        (fun _ => ?_) _ hw'
      cases r with
      | error e => exact fun _ hw => hw
      | ok c => exact fun _ hw => hw

mutual

theorem tameRun_exec (s : Stmt) : TameRun sig s.exec := by
  cases s with
  | arg | args | const | var | binary | unary | convert | field | diff | store | assign | ret | leaveLoop
  | nextRound | finalize | foreign | fault =>
    rw [Stmt.exec]
    infer_instance
  | ifThen c yes =>
    have : ∀ c p, TameRun sig (Describe.ifElse c yes.exec none p) := fun c p =>
      tameRun_ifElse p c (tameRun_body yes) nofun
    rw [Stmt.exec]
    infer_instance
  | ifElse c yes no =>
    have := fun c p => tameRun_ifElse p c (tameRun_body yes) (tameRun_body no)
    rw [Stmt.exec]
    infer_instance
  | whileLoop test body =>
    have := fun p => tameRun_whileLoop p (tameRun_test test) (tameRun_body body)
    rw [Stmt.exec]
    infer_instance
  | doWhile body test =>
    have := fun p => tameRun_doWhile p (tameRun_body body) (tameRun_test test)
    rw [Stmt.exec]
    infer_instance
  | forLoop init test step body =>
    have := fun p => tameRun_forLoop p (tameRun_body init) (tameRun_test test) (tameRun_body step)
      (tameRun_body body)
    rw [Stmt.exec]
    infer_instance
  | forN n bind body =>
    have := fun p => tameRun_forN p (tameRun_eachPart bind (tameRun_body body))
    rw [Stmt.exec]
    infer_instance
  | forRange first last bind body =>
    have := fun p => tameRun_forRange p (tameRun_eachPart bind (tameRun_body body))
    rw [Stmt.exec]
    infer_instance
  | forRangePtr first last bind body =>
    have := fun p => tameRun_forRangePtr p (tameRun_eachPart bind (tameRun_body body))
    rw [Stmt.exec]
    infer_instance

theorem tameRun_execAll (ss : List Stmt) : TameRun sig (execAll ss) := by
  cases ss with
  | nil => rw [execAll]; infer_instance
  | cons s ss =>
    have := tameRun_exec s
    have := tameRun_execAll ss
    rw [execAll]
    infer_instance

theorem tameRun_body (b : Body) : ∀ r ∈ b.exec, TameRun sig r := by
  cases b with
  | missing => exact fun _ h => nomatch h
  | stmts ss =>
    rintro _ ⟨⟩
    exact tameRun_execAll ss

theorem tameRun_test (t : Test) : ∀ r ∈ t.exec, TameRun sig r := by
  cases t with
  | missing => exact fun _ h => nomatch h
  | stmts ss v =>
    rintro _ ⟨⟩
    have := tameRun_execAll ss
    infer_instance

end

/-! ## Scripts -/

theorem argVars_ok (hs : s.Sane) (hlen : i + ts.length ≤ s.sig.params.length)
    (h : argVars position i ts s = .ok ((), s')) : s.Same s' := by
  induction ts generalizing i s with
  | nil =>
    obtain rfl : s = s' := congrArg Prod.snd (Except.ok.inj h)
    exact .refl s
  | cons t ts ih =>
    replace h := get_ok h
    obtain ⟨⟨ref, g⟩, u, hlift, h⟩ := bind_ok h
    obtain ⟨harg, ht⟩ := lift_ok hlift
    subst u
    obtain ⟨c, hc⟩ := hs.gen
    have hi : (0 : Int) ≤ i ∧ (i : Int) < c.sig.params.length := by
      rw [hc.sig]
      rw [List.length_cons] at hlen
      omega
    cases harg.symm.trans (hc.models.arg hi)
    obtain ⟨_, u, hset, h⟩ := bind_ok h
    cases hset
    obtain ⟨v, u, hvar, h⟩ := bind_ok h
    cases hvar
    have hsame : s.Same { s with vars := s.vars.push ⟨t, (i : Int), s.scopes.headD 0, position⟩ } :=
      ⟨rfl, rfl, rfl, rfl, id⟩
    have hlen' : i + 1 + ts.length ≤ s.sig.params.length := by
      rw [List.length_cons] at hlen
      omega
    exact hsame.trans (ih (hsame.sane hs) hlen' h)

theorem params_of_unfit (h : unfit? sig position = none) : ∀ t ∈ sig.params, t.isScalar = true := by
  rw [unfit?] at h
  split at h
  · cases h
  · rename_i hfind
    intro t ht
    simpa using List.find?_eq_none.1 hfind t ht

theorem intact_start (h : Sketch.start config 0 name sig position = .ok (.ok s)) :
    Intact sig True ⟨#[s], { config }⟩ := by
  rw [Sketch.start] at h
  split at h
  · cases h
  rename_i b _
  split at h
  · cases h
  rename_i hfit
  dsimp only at h
  have hsig : ∀ t ∈ sig.params, t.kind ≠ .invalid := fun t ht =>
    kind_ne_invalid_of_isScalar (params_of_unfit hfit t ht)
  set gen := (((Gen.Generator.ofBackend b).setPosition (some position)).start name sig).2 with hgen
  set s0 : Sketch := { id := ⟨0, name⟩, sig, gen, profileError := config.profileError }
  have hsane : s0.Sane := ⟨⟨_, Gen.Generator.describes_start b (some position) name hsig⟩, by simp [s0]⟩
  cases hvars : argVars position 0 sig.params s0 with
  | error f =>
    rw [hvars] at h
    cases h
  | ok r =>
    rw [hvars] at h
    cases h
    have hsame := argVars_ok hsane (Nat.zero_add _).le hvars
    exact ⟨⟨r.2, rfl, hsame.sig, .inr ⟨hsame.sane hsane, trivial⟩⟩, by simp⟩

/-- All code that comes of a script is that of a typed chart. -/
theorem made_of_run {after : List Stmt} {report : Report}
    (h : run config name sig body after = .ok (.ok report)) : ∀ c, report.code = some c → c.Made sig := by
  rw [run] at h
  split at h
  · cases h
  · cases h
  rename_i s hstart
  have htame : ∀ ss, TameRun sig (execAll ss) := tameRun_execAll
  have hbody := ((htame body).keeps True).intact _ (intact_start hstart)
  dsimp only at h
  split at h
  · rename_i f w hrun
    rw [hrun] at hbody
    cases h
    exact hbody.code
  rename_i w hrun
  rw [hrun] at hbody
  split at h
  · rename_i f w' hfinish
    cases h
    rw [finish_run_error hfinish]
    exact hbody.code
  rename_i final w' hfinish
  obtain ⟨hw', hmade⟩ := hbody.finish hfinish
  have hafter := ((htame after).keeps True).intact _ hw'
  cases final with
  | ok c =>
    obtain ⟨s, -, hs⟩ := hmade c rfl
    split at h
    all_goals
      cases h
      rintro _ ⟨⟩
      exact ⟨s.gen, hs⟩
  | error e =>
    split at h
    · rename_i f w'' hrun'
      rw [hrun'] at hafter
      cases h
      exact hafter.code
    · rename_i w'' hrun'
      rw [hrun'] at hafter
      cases h
      exact hafter.code

/-- A script describes a function from its start, and when it is finished there is code; the sketch is
what remains of the description. -/
def Finishes (config : Config) (name : String) (sig : Signature) (body : List Stmt) (code : Code)
    (s : Sketch) : Prop :=
  ∃ s₀ w w', Sketch.start config 0 name sig ⟨"new", 1⟩ = .ok (.ok s₀) ∧
    execAll body ⟨#[s₀], { config }⟩ = (.ok (), w) ∧
    (here (finish ⟨"finalize", 1⟩) : Run _) w = (.ok (.ok code), w') ∧ w'.sketches[0]? = some s

section

variable (h : Finishes config name sig body code s)
include h

theorem Finishes.madeBy : code.MadeBy s.gen sig := by
  obtain ⟨s0, w, w', hstart, hbody, hfinish, hs⟩ := h
  have htame : TameRun sig (execAll body) := tameRun_execAll body
  have hw := (htame.keeps True).intact _ (intact_start hstart)
  rw [hbody] at hw
  obtain ⟨s', hs', hmade⟩ := (hw.finish hfinish).2 code rfl
  exact Option.some.inj (hs'.symm.trans hs) ▸ hmade

theorem Finishes.unique {code' : Code} (h' : Finishes config name sig body code' s') : s = s' := by
  obtain ⟨s0, w, w1, hstart, hbody, hfinish, hs⟩ := h
  obtain ⟨s0', w', w1', hstart', hbody', hfinish', hs'⟩ := h'
  cases hstart.symm.trans hstart'
  cases hbody.symm.trans hbody'
  cases hfinish.symm.trans hfinish'
  exact Option.some.inj (hs.symm.trans hs')

end

theorem normalArgs_words {c : Code} {vs : List Host.HostValue} {ws : List Word} (h : c.words i ts vs = .ok ws) :
    ∀ (n : Nat) t w, ts[n]? = some t → ws[n]? = some w → w.Normal t.kind := by
  fun_induction Code.words c i ts vs generalizing ws with
  | case1 i t ts v vs e he => cases h
  | case2 i t ts v vs w hw ih =>
    cases hrest : c.words (i + 1) ts vs with
    | error e =>
      rw [hrest] at h
      cases h
    | ok ws' =>
      rw [hrest] at h
      cases h
      intro n t' w' ht hw'
      cases n with
      | zero =>
        cases ht
        cases hw'
        exact Host.HostValue.normal_toWord hw
      | succ n => exact ih hrest n t' w' ht hw'
  | case3 =>
    cases h
    exact fun n t w _ hw => nomatch hw

/-- Type soundness: whatever a script describes, each register of the code holds, at every step of every
run, a word that is normal for the type of the value it stands for. What is returned is normal for its
type, so nothing is lost when the host program gets it; and host values are passed as normal words. -/
theorem registers_normal {config : Config} {name : String} {sig : Signature} {body after : List Stmt}
    {report : Report} {code : Code} (h : run config name sig body after = .ok (.ok report))
    (hcode : report.code = some code) {args : Array Word} (hsize : args.size = sig.params.length)
    (hargs : Gen.Chart.NormalArgs sig args) (m : Memory) :
    (∃ (g g' : Gen.Generator), g.finalize = .ok (g', .ok code.program) ∧
      (∀ s, Finishes config name sig body code s → g' = s.gen) ∧
      code.program.Normal g'.draft.typeOf args m) ∧
    (∀ fuel w m', code.run fuel args m = .done w m' → w.Normal sig.result.kind ∧
      (sig.result.kind.isInt = true ∨ sig.result.kind = .bool →
        (Host.HostValue.ofWord sig.result w).toWord sig.result = .ok w)) ∧
    ∀ vs ws, code.words 0 sig.params vs = .ok ws → Gen.Chart.NormalArgs sig ws.toArray := by
  obtain ⟨g', ⟨⟨g, chart, hdesc, hfinal⟩, -⟩, htie⟩ : ∃ g', code.MadeBy g' sig ∧
      ∀ s, Finishes config name sig body code s → g' = s.gen := by
    by_cases hfin : ∃ s, Finishes config name sig body code s
    · obtain ⟨s, hs⟩ := hfin
      exact ⟨s.gen, hs.madeBy, fun s' hs' => congrArg Sketch.gen (hs.unique hs')⟩
    · obtain ⟨g', hmade⟩ := made_of_run h code hcode
      exact ⟨g', hmade, fun s hs => absurd ⟨s, hs⟩ hfin⟩
  obtain ⟨hregs, hresult⟩ := hdesc.normal hfinal hsize hargs m
  refine ⟨⟨g, g', hfinal, htie, hregs⟩, fun fuel w m' hrun => ?_, fun vs ws hws n t w ht hw => ?_⟩
  · have hw := hresult fuel w m' hrun
    exact ⟨hw, fun ht => Host.HostValue.toWord_ofWord ht hw⟩
  · exact normalArgs_words hws n t w ht (by simpa using hw)

/-- Halve a number until it is small, and tell whether anything is left of it. -/
def shrinking : List Stmt :=
  [.arg "x" 0,
    .whileLoop (.stmts [.binary (.compare .gt) "big" "x" (.const (.ofInt (.int (some .w64) true) 3))]
        "big")
      (.stmts [.binary (.arith .div) "half" "x" (.const (.ofInt (.int (some .w64) true) 2)),
        .assign "x" (.name "half")]),
    .convert "left" "x" .bool,
    .ret (.name "left")]

def codeOf? (r : Except Fault (Except StartError Report)) : Option Code :=
  match r with
  | .ok (.ok report) => report.code
  | _ => none

theorem exists_report {r : Except Fault (Except StartError Report)} (h : (codeOf? r).isSome = true) :
    ∃ report code, r = .ok (.ok report) ∧ report.code = some code := by
  obtain ⟨code, hcode⟩ := Option.isSome_iff_exists.1 h
  unfold codeOf? at hcode
  split at hcode
  · exact ⟨_, code, rfl, hcode⟩
  · cases hcode

theorem registers_normal_shrinking : ∃ report code,
    run {} "shrink" ⟨[.int 8 true], .bool⟩ shrinking [] = .ok (.ok report) ∧
    report.code = some code ∧
    (∃ (g g' : Gen.Generator), g.finalize = .ok (g', .ok code.program) ∧
      code.program.Normal g'.draft.typeOf #[.ofBits ((Kind.int .w8 true).norm 200)] .empty) ∧
    ∀ fuel w m', code.run fuel #[.ofBits ((Kind.int .w8 true).norm 200)] .empty = .done w m' →
      w.Normal .bool := by
  obtain ⟨report, code, hrun, hcode⟩ :=
    exists_report (r := run {} "shrink" ⟨[.int 8 true], .bool⟩ shrinking []) (by decide +kernel)
  have hargs : Gen.Chart.NormalArgs ⟨[.int 8 true], .bool⟩
      #[.ofBits ((Kind.int .w8 true).norm 200)] := by
    rintro (_ | n) t w ht hw
    · cases ht
      cases hw
      exact Word.normal_norm _ _
    · cases ht
  obtain ⟨⟨g, g', hfinal, -, hregs⟩, hresult, -⟩ := registers_normal hrun hcode rfl hargs .empty
  exact ⟨report, code, hrun, hcode, ⟨g, g', hfinal, hregs⟩, fun fuel w m' hw => (hresult fuel w m' hw).1⟩

end Script

end Codesmith
