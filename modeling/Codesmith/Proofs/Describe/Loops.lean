import Codesmith.Proofs.Describe.Rounds

/-!
# Loops

A loop that starts with a test leaves its head for the body or for its end. What the test makes is in scope
until the loop ends, but the end of the loop does not know it. The step, if there is one, starts where the
end of the body and the edges to the next round meet; it finds what the test has made only if the body
assigns to nothing of it.
-/

namespace Codesmith.Describe

open Gen (Sheet)
open Direct

variable {s t t' t1 t2 : Sketch} {A A' B B' : Sheet} {V U : Nat → Prop} {L : List Label} {b x : Label}
  {z : Option Label} {flows : List EdgeFlow} {nodes : List Node} {position : Position} {n m v : Nat} {y : Var}
  {l : Loop} {p : LoopPlan} {u : Unit}
variable {breaks continues : List EdgeFlow} {c : Option Ref} {g : Gen.Generator} {k : HeadState}
  {w : Option Nat} {r t3 : Sketch} {C : Sheet} {l' : Loop} {test body : List Node}

/-! ## Loops and scopes -/

/-- The sketch has made progress by describing a loop. Variables that were made by its test need not be
known where control goes on. -/
structure Outlines (nodes : List Node) (s : Sketch) (A : Sheet) (s' : Sketch) (A' : Sheet) : Prop where
  advance : Advance (· ∈ assignedAll nodes) s A s' A'
  ready : Ready s' A' (· < s.vars.size)
  laid : LaidAll A' s.around nodes (point s A) (point s' A')
  made : ∀ v, s.vars.size ≤ v → v < s'.vars.size → v ∈ madeAll nodes
  calm : continuesAny nodes = false → s.Calm s'

/-- When the scope around a loop is closed, everything in scope is known. -/
theorem Outlines.scoped {nodes' : List Node} (h : Outlines nodes' t B t' B') (hi : Draws nodes s.inner A t B)
    (hd : Drawn s A) (hclose : closeScope t' = .ok (u, t1)) : Draws (nodes ++ nodes') s A t1 B' := by
  have hadvance := hi.progress.toAdvance.trans h.advance hd.inner
  rw [closeScope_run hadvance.evolves.scopes] at hclose
  cases hclose
  refine ⟨(progress_scope hd hadvance h.ready fun v y hy hopen hscope => ?_).congr fun v => by
    rw [assignedAll_append, List.mem_append], ?_, fun v hv hlt => ?_, fun hn => ?_⟩
  · by_contra hge
    rcases h.advance.evolves.made v y (not_lt.1 hge) hy with heq | hclosed
    · exact hscope (heq.trans (by rw [hi.progress.evolves.scopes]; rfl))
    · rw [hopen] at hclosed
      cases hclosed
  · have hlaid := h.laid
    rw [hi.progress.feeds.around] at hlaid
    exact (hi.laid.mono h.advance.grows.ext).append hlaid
  · rw [madeAll_append, List.mem_append]
    by_cases hvt : v < t.vars.size
    · exact .inl (hi.made v hv hvt)
    · exact .inr (h.made v (not_lt.1 hvt) hlt)
  · rw [continuesAny_append, Bool.or_eq_false_iff] at hn
    exact Lasting.trans (hi.calm hn.1) (h.calm hn.2)

/-! ## The beginning -/

/-- A loop has begun whose body, end and step are the given blocks. -/
structure Starts (V : Nat → Prop) (b x : Label) (z : Option Label) (p : LoopPlan) (s : Sketch) (A : Sheet)
    (t : Sketch) (B : Sheet) : Prop where
  looping : Looping V (fun _ => False) (b :: x :: z.toList) p.loop [] s A t B
  ready : Ready t B fun _ => True
  entered : Entered p.loop.head.toNat t B
  before : p.before = s.snapshot s.vars.size
  body : p.body = b
  exit : p.loop.exit = x
  step : p.step = z.map fun z : Label => (z : Int)
  next : p.loop.next = (p.step.getD p.loop.head)
  apart : b ≠ x ∧ ∀ k ∈ z, k ≠ b ∧ k ≠ x
  head_ne : ∀ k ∈ b :: x :: z.toList, k ≠ p.loop.head.toNat
  waits : Awaits t B b s.vars.size []
  step_waits : ∀ k ∈ z, Awaits t B k s.vars.size []
  fresh : p.loop.breaks = [] ∧ p.loop.continues = []
  size : t.vars.size = s.vars.size
  dead : t.dead = s.dead
  calm : s.Calm t

theorem Starts.grown (h : Starts V b x z p s A t B) : (p.loop.grown breaks continues).breaks = breaks ∧
      (p.loop.grown breaks continues).continues = continues := by
  simp [Loop.grown, h.fresh]

theorem map_ok {α β : Type} {e : Edit α} {f : α → β} {c : β} (h : (f <$> e) s = .ok (c, t)) :
    ∃ a, e s = .ok (a, t) ∧ c = f a := by
  rw [map_eq_pure_bind] at h
  obtain ⟨a, t', he, hf⟩ := bind_ok h
  cases hf
  exact ⟨a, he, rfl⟩

/-- A loop begins after its blocks have been made. -/
theorem starts {k : Loop} {h : Label} (position : Position) (hp : Prepared (fun _ => True) V L s A g B)
    (hL : ∀ y, y ∈ L ↔ y = h ∨ y ∈ b :: x :: z.toList) (hbx : b ≠ x) (hz : ∀ k ∈ z, k ≠ b ∧ k ≠ x)
    (hh : ∀ k ∈ b :: x :: z.toList, k ≠ h)
    (hrun : enterLoop { size := s.vars.size, next := (z.map fun z : Label => (z : Int)).getD h, exit := x, head := h }
      position { s with gen := g } = .ok (k, t')) :
    ∃ B', Starts V b x z ⟨k, s.snapshot s.vars.size, b, z.map fun z : Label => (z : Int)⟩ s A
      { t' with frames := .empty :: t'.frames } B' := by
  have hcalm : Sketch.Calm { s with gen := g } t' := Leads.holds _ _ _ hrun
  obtain ⟨B', phis, rfl, hlooping, hready, hentered, hsize, hdead, hawaits⟩ := looping_start position
    (b :: x :: z.toList) hp (hh x (by simp)) ((hL h).2 (.inl rfl)) (by simp)
    ⟨fun y hy => (hL y).1 hy, fun y hy => (hL y).2 (.inr hy)⟩ hrun
  have hmem : ∀ k ∈ z, k ∈ b :: x :: z.toList := fun k hk => by simp [Option.mem_toList.2 hk]
  exact ⟨B', hlooping, hready, hentered, rfl, rfl, rfl, rfl, rfl, ⟨hbx, hz⟩, hh,
    hawaits b (by simp) (hh b (by simp)), fun k hk => hawaits k (hmem k hk) (hh k (hmem k hk)), ⟨rfl, rfl⟩, hsize,
    hdead, hcalm⟩

theorem startLoop_ok {name : String} {e : Bool} (V : Nat → Prop)
    (h : startLoop name e position s = .ok (p, t)) (hd : Drawn s A) (hr : AllReady s A) :
    ∃ b x z B, z.isSome = e ∧ Starts V b x z p s A t B := by
  replace h := get_ok h
  obtain ⟨i, t1, hnew1, h1⟩ := bind_ok h
  obtain ⟨j, t2, hnew2, h2⟩ := bind_ok h1
  obtain ⟨k, t3, hnew3, h3⟩ := bind_ok h2
  have hstart : Prepared (fun _ => True) V [] s A s.gen A := prepared_start hd hr
  obtain ⟨rfl, g1, rfl, hp1⟩ := hstart.newBlock hnew1
  obtain ⟨rfl, g2, rfl, hp2⟩ := hp1.newBlock hnew2
  obtain ⟨rfl, g3, rfl, hp3⟩ := hp2.newBlock hnew3
  cases e with
  | false =>
    obtain ⟨step, t4, hnone, h4⟩ := bind_ok h3
    cases hnone
    obtain ⟨l, t', henter, h5⟩ := bind_ok h4
    obtain ⟨B, hB⟩ := starts (b := A.chart.size + 1) (x := A.chart.size + 2) (z := none) position hp3
      (fun y => by simp only [List.mem_cons, Option.toList]; tauto)
      (by simp) nofun (by simp) henter
    cases h5
    exact ⟨_, _, none, B, rfl, hB⟩
  | true =>
    obtain ⟨step, t4, hstep, h4⟩ := bind_ok h3
    obtain ⟨i, hnew4, rfl⟩ := map_ok hstep
    obtain ⟨rfl, g4, rfl, hp4⟩ := hp3.newBlock hnew4
    obtain ⟨l, t', henter, h5⟩ := bind_ok h4
    obtain ⟨B, hB⟩ := starts (b := A.chart.size + 1) (x := A.chart.size + 2) (z := some (A.chart.size + 3)) position hp4
      (fun y => by simp only [List.mem_cons, Option.toList]; tauto)
      (by simp) (by simp) (by simp) henter
    cases h5
    exact ⟨_, _, some _, B, rfl, hB⟩

/-! ## Leaving the head -/

/-- A variable in scope holds the condition of a loop, if the loop has one. -/
def Checked (s : Sketch) (c : Option Ref) : Option Nat → Prop
  | none => c = none
  | some v => ∃ y, s.vars[v]? = some y ∧ s.isClosed y = false ∧ y.ty = .bool ∧ c = some y.ref

/-- How control leaves the head of a loop. -/
def headExit (c : Option Ref) (body exit : BlockId) : Gen.Exit :=
  match c with
  | none => .jump body
  | some ref => .branch ref body exit

/-- The edge to the end of a loop, if control may leave the loop there. -/
def Sketch.leavingIf (s : Sketch) (c : Option Nat) (n : Nat) : List EdgeFlow :=
  if c.isSome then s.leaving n else []

theorem leaveHead_ok (h : leaveHead p c position t = .ok (k, t')) :
    k = ⟨t.dead, t.snapshot p.loop.size, if c.isNone || t.dead then [] else [t.flow p.loop.size]⟩ ∧
      ∃ g, (t.exits (headExit c p.body p.loop.exit) position).gen.setBlock p.body = .ok g ∧
        t' = Sketch.inLoop { t.exits (headExit c p.body p.loop.exit) position with gen := g } p.loop := by
  replace h := get_ok h
  obtain ⟨_, t1, hterm, h⟩ := bind_ok h
  rw [terminate_run] at hterm
  cases hterm
  obtain ⟨_, t2, hset, h⟩ := bind_ok h
  obtain ⟨g, hg, rfl⟩ := setBlock_ok hset
  cases h
  cases c <;> exact ⟨rfl, g, hg, rfl⟩

/-- The head of a loop is left for the body, or for the end if there is a condition. -/
theorem Looping.leave_head (position : Position) (h : Looping V U (b :: x :: z.toList) l [] s A t B)
    (hr : AllReady t B) (hc : Checked t c w) (hb : Awaits t B b n []) (hx : l.exit = x)
    (hbx : b ≠ x) :
    ∃ B', Looping V U (b :: x :: z.toList) l (t.leavingIf w l.size) s A (t.exits (headExit c b x) position) B' ∧
      B'.Left ∧ Awaits (t.exits (headExit c b x) position) B' b t.vars.size (t.leaving t.vars.size) ∧
      Tests B' w (point t B) b x ∧ B.Retains B' ∧
      ∀ y m gs, y ≠ b → y ≠ x → Awaits t B y m gs → Awaits (t.exits (headExit c b x) position) B' y m gs := by
  have hxnat : l.exit.toNat = x := by rw [hx, Int.toNat_natCast]
  have hlive : t.dead = false → s.dead = false := fun hlive => by
    cases hs : s.dead with
    | false => rfl
    | true => exact absurd (h.within.quiet hs) (by simp [hlive])
  have hbody : Awaits t B b t.vars.size [] := hb.resize le_rfl
  cases w with
  | none =>
    obtain rfl : c = none := hc
    have hw := h.within.jump position hr hb.pending (h.within.own b (by simp))
    have hch := B.chart.exits_terminate (.jump b)
    have hsound := hw.drawn.shows.sound
    have hg : B.Grows 0 (fun _ => False) (· = B.chart.current) (fun _ => False) (· = b) _ :=
      (hr.grows_leave hch).mono (fun _ _ hv => hv) (fun _ _ ht => .inl ht) (fun _ _ hj => hj)
        fun y _ hy => Int.ofNat_inj.1 (List.mem_singleton.1 hy.2)
    refine ⟨_, h.step hw hg (alike_gen t _).carries (fun _ hy => hy) (fun _ hy => absurd hy id)
      (fun heq => hbx (heq.symm.trans hxnat)) (by simp [hxnat]) h.framed, Sheet.left_leave hch,
      hbody.leave h.within.drawn (hr.mono fun _ _ => trivial) hch hsound (List.mem_singleton_self _),
      fun k j hq => ?_, hg.retains, fun y m gs hy _ hw' => hw'.mono hg hsound (alike_gen t _).carries hw'.ne id hy⟩
    rw [point] at hq
    split at hq
    · cases hq
    · cases hq
      exact endsAt_leave B _
  | some v =>
    obtain ⟨y, hy, hopen, hbool, rfl⟩ := hc
    have hexit := h.exit
    rw [hxnat] at hexit
    obtain ⟨B', hw, hleft, hb', hx', hend, hg⟩ := h.within.branch position hr hy hopen hbool hbody hexit
      (by simp) (by simp)
    refine ⟨B', h.move hw hg (alike_gen t _).carries (fun _ hy => hy) (fun _ hy => absurd hy id)
      (by rw [hxnat]; exact hx') (by simp [hxnat]) h.framed (fun hne => ?_), hleft, hb', fun k j hq => ?_,
      hg.retains, fun y m gs hyb hyx hw' => hw'.mono hg hw.drawn.shows.sound (alike_gen t _).carries hw'.ne id
        fun heq => heq.elim hyb hyx⟩
    · obtain ⟨f, hf⟩ := List.exists_mem_of_ne_nil _ hne
      exact hlive (mem_leaving hf).1
    · rw [point] at hq
      split at hq
      · cases hq
      · rename_i hdead
        cases hq
        exact ⟨y.ref, hg.ext.knows _ _ _ _ (hr.env (by simpa using hdead) v y trivial hy hopen), hend⟩

/-- The body of a loop starts with the variables as they are when the head is left. -/
theorem Looping.enter_body (L' : List Label) (h : Looping V U L l flows s A t1 B) (hleft : B.Left)
    (hb : Awaits t1 B b t.vars.size (t.leaving t.vars.size)) (hbL : b ∈ L) (hbx : b ≠ l.exit.toNat)
    (hbh : b ≠ l.head.toNat) (ht : t1.vars = t.vars ∧ t1.dead = t.dead ∧ t1.closed = t.closed)
    (hset : t1.gen.setBlock b = .ok g) (hL : Remain b L L')
    (hx : l.exit.toNat ∈ L') :
    ∃ B', Looping V U L' l flows s A { t1 with gen := g } B' ∧ AllReady { t1 with gen := g } B' ∧
      Entered b { t1 with gen := g } B' ∧ B.Retains B' ∧
      ∀ y m gs, y ≠ b → Awaits t1 B y m gs → Awaits { t1 with gen := g } B' y m gs := by
  obtain ⟨hvars, hdead, hclosed⟩ := ht
  have hcommon : t1.dead = false → ∀ (v : Nat) y, t1.vars[v]? = some y → t1.isClosed y = false →
      B.Common b v y.ref := by
    intro hlive v y hy hopen
    refine hb.common (by simp [Sketch.leaving, ← hdead, hlive]) hy hopen fun f hf => ?_
    rw [(mem_leaving hf).2]
    rw [hvars] at hy
    exact flow_refs hy (Array.getElem?_eq_some_iff.1 hy).1
  have hlive : t1.dead = false → s.dead = false := fun hlive => by
    cases hs : s.dead with
    | false => rfl
    | true => exact absurd (h.within.quiet hs) (by simp [hlive])
  obtain ⟨B', hw, hentered, hready, hg⟩ := h.within.into t1.dead hleft hb hbL hset
    (by rw [Sketch.leaving, hdead]; cases t.dead <;> simp) hlive hcommon hL
  have hs := (alike_gen t1 g).carries
  exact ⟨B', h.step hw hg hs (fun _ hy => absurd hy id) (fun y hy => hy ▸ ⟨hbx, hbh⟩) id hx h.framed, hready,
    hentered, hg.retains, fun y m gs hy hw' => hw'.mono hg hw.drawn.shows.sound hs id hy id⟩

/-! ## The step -/

theorem leaveStep_run (l : Loop) (position : Position) (t : Sketch) :
    leaveStep l position t = .ok ((), t.backTo l (.jump l.head) position) := by
  have hbind : leaveStep l position t = (if t.dead then pure () else do
      terminate (.jump l.head) position
      backEdge l (t.flow l.size) : Edit Unit) t := rfl
  rw [hbind, Sketch.backTo]
  by_cases hdead : t.dead = true
  · rw [if_pos hdead, if_pos hdead]
    rfl
  · rw [if_neg hdead, if_neg hdead]
    exact backEdge_run _ _ _

theorem leaveBody_eq : leaveBody p l position t = (if t.dead then pure l else do
    terminate (.jump l.next) position
    if p.step.isSome then return { l with continues := l.continues ++ [t.flow l.size] }
    backEdge l (t.flow l.size)
    return l : Edit Loop) t :=
  rfl

/-- Without a step, control goes back to the head from the end of the body. -/
theorem leaveBody_back (hp : p.step = none) (hl : l.next = l.head) :
    leaveBody p l position t = .ok (l, t.backTo l (.jump l.head) position) := by
  rw [leaveBody_eq, Sketch.backTo, hp, hl]
  by_cases hdead : t.dead = true
  · rw [if_pos hdead, if_pos hdead]
    rfl
  · rw [if_neg hdead, if_neg hdead]
    have hrun := backEdge_run l (t.flow l.size) (t.exits (.jump l.head) position)
    exact congrArg (fun q : Except Fault (Unit × Sketch) => q.map fun q => (l, q.2)) hrun

/-- With a step, control goes on there from the end of the body. -/
theorem leaveBody_step {z : BlockId} (hp : p.step = some z) : leaveBody p l position t =
    .ok ({ l with continues := l.continues ++ t.leaving l.size }, t.goTo l.next position) := by
  rw [leaveBody_eq, Sketch.leaving, Sketch.goTo, hp]
  by_cases hdead : t.dead = true
  · rw [if_pos hdead, if_pos hdead, if_pos hdead, List.append_nil]
    rfl
  · rw [if_neg hdead, if_neg hdead, if_neg hdead]
    rfl

/-- Control goes from the end of the body to where the next round is prepared. -/
theorem Looping.goTo {k : Label} (position : Position) (h : Looping V U L l flows s A t B)
    (hr : AllReady t B) (hk : Awaits t B k l.size continues) (hkL : k ∈ L)
    (hkx : k ≠ l.exit.toNat) :
    t.Alike (t.goTo k position) ∧ ∃ B1, Looping V U L l flows s A (t.goTo k position) B1 ∧ B1.Left ∧
      Awaits (t.goTo k position) B1 k l.size (continues ++ t.leaving l.size) ∧ JumpsTo B1 (point t B) k ∧
      B.Grows 0 (fun _ => False) (· = B.chart.current) (fun _ => False) (· = k) B1 := by
  obtain ⟨B1, hw1, hleft, hk1, hjump, -, hg⟩ := h.within.goTo position (hr.mono fun _ _ => trivial) hk
    (h.within.own k hkL)
  have halike : t.Alike (t.goTo k position) := by
    rw [goTo_eq]
    exact alike_gen t _
  refine ⟨halike, B1, h.step hw1 hg halike.carries (fun _ hy => hy) (fun _ hy => absurd hy id) hkx.symm
    h.exit_mem ?_, hleft, hk1, hjump, hg⟩
  rw [goTo_eq]
  exact h.framed

theorem Looping.live_of_edges (h : Looping V U L l flows s A t B) (hlive : s.dead = true → continues = [])
    (hne : continues ++ t.leaving l.size ≠ []) : s.dead = false := by
  cases hs : s.dead with
  | false => rfl
  | true => exact absurd (by simp [hlive hs, Sketch.leaving, h.within.quiet hs]) hne

/-- The step of a loop starts where the end of the body and the edges to the next round meet. What the test
has made is known there if there are no such edges or the body does not assign to it. -/
theorem Looping.enter_step {N : Nat → Prop} {k : Label} (position : Position)
    (h : Looping V U [x, k] l flows s A t B) (hr : AllReady t B) (hx : l.exit = x)
    (hk : Awaits t B k l.size continues) (hkx : k ≠ x) (hkh : k ≠ l.head.toNat)
    (hkept : ∀ f ∈ continues, Kept N r B f) (hlive : s.dead = true → continues = []) (hd : Drawn r C)
    (hev : Evolves N r t) (hnew : ∀ (v : Nat) y, r.vars.size ≤ v → t.vars[v]? = some y → t.isClosed y = true)
    (hN : B.strict → continues ≠ [] → ∀ v, l.size ≤ v → v < r.vars.size → ¬ N v)
    (hty : ∀ (v : Nat) y, r.vars[v]? = some y → B.HasTy y.ref y.ty)
    (hrun : Describe.merge k (continues ++ t.leaving l.size) l.size none
      ((t.goTo k position).restoreFrom 0 (r.snapshot l.size).toList) = .ok (u, t')) :
    ∃ B', Looping V U [x] l flows s A t' B' ∧ AllReady t' B' ∧ Entered k t' B' ∧
      JumpsTo B' (point t B) k ∧ B.Retains B' ∧ t.Carries t' ∧ t'.vars.size = t.vars.size := by
  have hxnat : l.exit.toNat = x := by rw [hx, Int.toNat_natCast]
  have hkx' : k ≠ l.exit.toNat := hxnat.symm ▸ hkx
  obtain ⟨halike, B1, h1, hleft, hk1, hjump, hg⟩ := h.goTo position hr hk (by simp) hkx'
  set t1 := t.goTo k position with ht1
  have hvars1 : t1.vars = t.vars := by rw [ht1, goTo_eq]
  have hrt : r.Carries t1 := fun v y hy => by
    obtain ⟨y', hy', hty', hclosed⟩ := hev.var hd hy
    refine ⟨y', hvars1 ▸ hy', hty', fun hopen => ?_⟩
    rw [← hclosed, ← halike.isClosed rfl]
    exact hopen
  set t2 := t1.restoreFrom 0 (r.snapshot l.size).toList with ht2
  have halike2 : t1.Alike t2 := alike_restoreFrom t1 _
  have hsize2 : t2.vars.size = t1.vars.size := restored_size _ _ _
  have hrest : t2 = { t1 with vars := t2.vars } := Sketch.restoreFrom_eq _ _ _
  have h2 : Looping V U [x, k] l flows s A t2 B1 := by
    refine h1.alter halike2 hsize2 (by rw [hrest]) (by rw [hrest]) (by rw [hrest]; exact h1.within.quiet)
      fun v y hy => ?_
    exact hasTy_restored (fun v y hy => (h1.within.drawn.ty v y hy).1)
      (fun v y hy => hg.hasTy (hty v y hy)) hrt hy
  obtain ⟨B', h', hentered, hmerged⟩ := h2.merge [x] hleft
    (hk1.alter h1.within.drawn.shows.sound halike2.carries) (by simp) hkx' hkh
    (h.live_of_edges hlive) ⟨by simp, by simp⟩ (by simp [hxnat])
    hrun
  refine ⟨B', h', hentered.ready fun hdead v y _ hy hopen => ?_, hentered, hjump.mono hmerged.grows.ext,
    hg.retains.trans hmerged.grows.retains, halike.carries.trans (halike2.carries.trans hmerged.alike.carries),
    hmerged.size.trans (hsize2.trans (congrArg Array.size hvars1))⟩
  have hne : continues ++ t.leaving l.size ≠ [] := fun hnil => by
    rw [hmerged.dead.2 hnil] at hdead
    cases hdead
  by_cases hv : v < l.size
  · exact hmerged.known hne v y hv hy hopen
  -- The test has made the variable, and all edges bring it as the test has left it.
  obtain ⟨y2, hy2, -, hscope2⟩ := hmerged.alike.back hmerged.size hy
  obtain ⟨y1, hy1, -, hscope1⟩ := halike2.back hsize2 hy2
  have href2 : y2.ref = y1.ref := by
    cases hy2.symm.trans (restored_var hy1)
    exact if_neg hv
  have href : y.ref = y1.ref := (hmerged.same v y2 y hy2 hy fun _ _ hlt => absurd hlt hv).trans href2
  rw [hvars1] at hy1
  have hopen1 : t.isClosed y1 = false := by
    rw [← halike.isClosed rfl, ← halike2.isClosed hscope1, ← hmerged.alike.isClosed hscope2]
    exact hopen
  have hlt : v < r.vars.size := by
    by_contra hge
    rw [hnew v y1 (not_lt.1 hge) hy1] at hopen1
    cases hopen1
  intro hstrict
  rw [href]
  refine hmerged.common hne v y1.ref ⟨(hg.hasTy (h.within.drawn.ty v y1 hy1).1).1, fun p hp hedge => ?_⟩
    hstrict
  obtain ⟨f, hf, hfp⟩ := List.mem_map.1 (hk1.all p hp hedge)
  rcases List.mem_append.1 hf with hf | hf
  · obtain ⟨q, hq, -, hedge', -⟩ := (hk.each f hf).source
    obtain rfl := Int.ofNat_inj.1 (hq.symm.trans hfp)
    have hnot := hN (hg.ext.strict.1 (hmerged.grows.ext.strict.1 hstrict)) (List.ne_nil_of_mem hf) v (not_lt.1 hv) hlt
    have hz := Array.getElem?_eq_getElem hlt
    obtain ⟨y1', hy1', -, hclosed⟩ := hev.var hd hz
    cases hy1.symm.trans hy1'
    rw [(hg.ext.edge hedge').2, hev.refs v _ y1 hnot hz hy1]
    exact hg.ext.knows _ _ _ _ (hkept f hf q hq v _ hz (hclosed.symm.trans hopen1) hnot)
  · obtain ⟨hlive', rfl⟩ := mem_leaving hf
    obtain rfl : B.chart.current = p := Int.ofNat_inj.1 (h.within.drawn.shows.current.symm.trans hfp)
    rw [← (hjump _ B.top (by rw [point, hlive']; rfl)).last]
    exact hg.ext.knows _ _ _ _ (hr.env hlive' v y1 trivial hy1 hopen1)

/-! ## The end -/

section

variable (h : Looping V U [x] l flows s A t B) (hleft : B.Left) (hr : AllReady s A)
include h hleft hr

/-- The frame of a loop is left, and control goes on where the edges to its end meet. In between the
variables may be given other values. -/
theorem Looping.close {a : BitSet.Plain} (hUV : ∀ v, U v ↔ V v) (hx : l.exit = x)
    (hpop : popFrame t = .ok (a, t1)) (hs : t1.Alike t2) (hsize : t2.vars.size = t1.vars.size)
    (hgen : t2.gen = t1.gen) (hframes : t2.frames = t1.frames) (hdead : s.dead = true → t2.dead = true)
    (hvars : ∀ (v : Nat) y, t2.vars[v]? = some y → B.HasTy y.ref y.ty)
    (hmerge : Describe.merge x flows s.vars.size none t2 = .ok (u, t3)) :
    ∃ A', Advance V s A (t3.keepFrom a 0 (s.snapshot s.vars.size).toList) A' ∧
      Ready (t3.keepFrom a 0 (s.snapshot s.vars.size).toList) A' (· < s.vars.size) ∧
      AtHead A' (point (t3.keepFrom a 0 (s.snapshot s.vars.size).toList) A') x ∧ B.Extends A' ∧
      (t3.keepFrom a 0 (s.snapshot s.vars.size).toList).vars.size = t.vars.size := by
  obtain rfl : U = V := funext fun v => propext (hUV v)
  obtain ⟨ha, ht1, hgrow⟩ := popFrame_ok h.framed hpop
  have halike : t.Alike t1 := by
    rw [ht1]
    exact ⟨rfl, rfl, rfl, rfl, rfl, rfl, rfl, rfl, fun _ y hy => ⟨y, hy, rfl, rfl⟩⟩
  have hw1 : Within (fun _ => True) U [x] s A t1 B := h.within.alter halike (by rw [ht1]) (by rw [ht1])
    (by rw [ht1]; exact h.within.quiet) (by rw [ht1]; exact fun v y hy => (h.within.drawn.ty v y hy).1)
  have hw2 := hw1.alter hs hsize hgen hdead hvars
  have hsound := h.within.drawn.shows.sound
  have hexit := (h.exit.alter hsound halike.carries).alter hsound hs.carries
  rw [h.size, hx, Int.toNat_natCast] at hexit
  have hend := h.ended
  rw [← h.head_cast] at hend
  obtain ⟨A', hadvance, hready, hhead, hext, hsize'⟩ := loop_closed hw2 hr hend h.head_new hleft hexit
    List.mem_cons_self (fun y hy => List.mem_singleton.1 hy) h.live (hframes.symm ▸ hgrow) ha hmerge
  exact ⟨A', hadvance, hready, hhead, hext, hsize'.trans (hsize.trans (by rw [ht1]))⟩

theorem endLoop_ok (hrun : endLoop p l' k t = .ok (u, t')) (hUV : ∀ v, U v ↔ V v) (hx : l.exit = x)
    (hl' : l'.exit = l.exit ∧ l'.size = l.size) (hflows : k.exits ++ l'.breaks = flows)
    (hbefore : p.before = s.snapshot s.vars.size) (hrefs : k.refs = r.snapshot l.size) (hrt : r.Carries t)
    (hty : ∀ (v : Nat) y, r.vars[v]? = some y → B.HasTy y.ref y.ty) (hdead : s.dead = true → k.dead = true) :
    ∃ A', Advance V s A t' A' ∧ Ready t' A' (· < s.vars.size) ∧ AtHead A' (point t' A') x ∧ B.Extends A' ∧
      t'.vars.size = t.vars.size := by
  obtain ⟨a, t1, hpop, hrun⟩ := bind_ok hrun
  obtain ⟨_, t2, hrestore, hrun⟩ := bind_ok hrun
  rw [restore_run] at hrestore
  cases hrestore
  obtain ⟨_, t3, hmodify, hrun⟩ := bind_ok hrun
  cases hmodify
  obtain ⟨_, t4, hmerge, hrun⟩ := bind_ok hrun
  cases hrun
  rw [hflows, hl'.1, hl'.2, hx, h.size] at hmerge
  rw [hbefore]
  obtain ⟨-, ht1, -⟩ := popFrame_ok h.framed hpop
  have hvars1 : t1.vars = t.vars := by rw [ht1]
  have halike : t1.Alike { t1.restoreFrom 0 k.refs.toList with dead := k.dead } :=
    { alike_restoreFrom t1 k.refs with }
  refine h.close hleft hr hUV hx hpop halike (restored_size _ _ _) ?_ ?_ hdead (fun v y hy => ?_) hmerge
  · show (t1.restoreFrom 0 k.refs.toList).gen = t1.gen
    rw [Sketch.restoreFrom_eq]
  · show (t1.restoreFrom 0 k.refs.toList).frames = t1.frames
    rw [Sketch.restoreFrom_eq]
  · rw [hrefs] at hy
    refine hasTy_restored (fun v y hy => ?_) hty ?_ hy
    · rw [hvars1] at hy
      exact (h.within.drawn.ty v y hy).1
    · rw [ht1]
      exact hrt

end

/-! ## Whole loops -/

/-- The test and the body of a loop have been described; `r` is the sketch with which the body began. -/
structure Midway (V : Nat → Prop) (test body : List Node) (w : Option Nat) (b x : Label) (z : Option Label)
    (p : LoopPlan) (k : HeadState) (s : Sketch) (A : Sheet) (r : Sketch) (C : Sheet) (t : Sketch) (B : Sheet)
    (breaks continues : List EdgeFlow) : Prop where
  drawn : Drawn r C
  quiet : s.dead = true → r.dead = true
  refs : k.refs = r.snapshot p.loop.size
  dead : k.dead = r.dead
  rounded : Rounded V (fun v => False ∨ v ∈ assignedAll test) (x :: z.toList) p.loop k.exits body s A r C t B
    breaks continues
  laid : ∃ q₁, (s.dead = false → LaidAll B s.around test (some (p.loop.head.toNat, 0)) q₁) ∧
    Tests B w q₁ b x ∧
      LaidAll B (some ⟨x, p.loop.next.toNat⟩) body (q₁.map fun _ => (b, 0)) (point t B)
  made : ∀ v, s.vars.size ≤ v → v < r.vars.size → v ∈ madeAll test
  calm : continuesAny test = false → s.Calm t

/-- Control leaves the head of a loop for its body, which may then be described. -/
theorem Starts.midway {B2 : Sheet} (hs : Starts V b x z p s A t1 B) (hdraws : Draws test t1 B t2 B2)
    (hc : Checked t2 c w) (hleave : leaveHead p c position t2 = .ok (k, t3))
    (hVt : ∀ v ∈ assignedAll test, V v) (hVb : ∀ v ∈ assignedAll body, V v) :
    ∃ C, Drawn t3 C ∧ AllReady t3 C ∧ B2.Extends C ∧
      ∀ t4 B', Draws body t3 C t4 B' → Closes t3 t4 → ∃ r breaks continues,
        t4.loops = p.loop.grown breaks continues :: r.loops ∧
          Midway V test body w b x z p k s A r C { t4 with loops := r.loops } B' breaks continues := by
  obtain ⟨hkeep, g, hset, rfl⟩ := leaveHead_ok hleave
  have hexit : p.loop.exit.toNat = x := by rw [hs.exit, Int.toNat_natCast]
  have hprog := hdraws.progress
  have hlooping2 := hs.looping.part hprog hVt
  have hawaits2 : ∀ y ∈ b :: x :: z.toList, ∀ m gs, Awaits t1 B y m gs → Awaits t2 B2 y m gs :=
    fun y hy m gs hw => hs.looping.within.awaits_part hprog (hs.looping.within.own y hy) hw
  rw [hs.body, hs.exit] at hset ⊢
  obtain ⟨B3, hlooping3, hleft, hb, htests, hret3, hother3⟩ := hlooping2.leave_head position hprog.ready hc
    (hawaits2 b (by simp) _ _ hs.waits) hs.exit hs.apart.1
  obtain ⟨C, hlooping, hready, hentered, hret, hother⟩ := hlooping3.enter_body (x :: z.toList) hleft hb
    (by simp) (hexit.symm ▸ hs.apart.1) (hs.head_ne b (by simp)) ⟨rfl, rfl, rfl⟩ hset ⟨by simp, by simp +contextual⟩
    (by simp [hexit])
  set r : Sketch := { t2.exits (headExit c b x) position with gen := g }
  have hcontinues : p.loop.Continues (x :: z.toList) r C := by
    cases z with
    | none => exact .inl (by rw [hs.next, hs.step]; rfl)
    | some z =>
      obtain ⟨hzb, hzx⟩ := hs.apart.2 z rfl
      refine .inr ⟨z, by rw [hs.next, hs.step]; rfl, by simp, hexit.symm ▸ hzx, ?_⟩
      rw [hs.looping.size]
      exact hother z _ _ hzb (hother3 z _ _ hzb hzx (hawaits2 z (by simp) _ _ (hs.step_waits z rfl)))
  refine ⟨C, hlooping.drawn_inLoop hcontinues, ⟨hready.exit, hready.dead, hready.env⟩,
    (hret3.trans hret).toExtends, fun t4 B' hbody hclosed => ?_⟩
  obtain ⟨breaks, continues, hloops, hrounded⟩ := hlooping.round hcontinues hbody hclosed hVb
  have hexits : k.exits = t2.leavingIf w p.loop.size := by
    rw [hkeep, Sketch.leavingIf, Sketch.leaving]
    cases w with
    | none =>
      rw [show c = none from hc]
      rfl
    | some v =>
      obtain ⟨y, -, -, -, rfl⟩ := hc
      rfl
  have hext := (hret.trans hrounded.retains).toExtends
  have hext2 := hret3.toExtends.trans hext
  refine ⟨r, breaks, continues, hloops, ⟨hlooping.within.drawn, hlooping.within.quiet, ?_, ?_, ?_,
    ⟨point t2 B2, fun hlive => ?_, htests.mono hext, ?_⟩, fun v hv hlt => hdraws.made v (hs.size ▸ hv) hlt,
    fun hn => Lasting.trans hs.calm (hdraws.calm hn)⟩⟩
  · rw [hkeep]
    rfl
  · rw [hkeep]
    rfl
  · rw [hexits]
    exact hrounded
  · have hlaid := hdraws.laid
    rw [hs.entered.point_eq, hs.dead, hlive, hs.looping.within.feeds.around] at hlaid
    exact hlaid.mono hext2
  · have hlaid := hrounded.laid
    rw [hentered.point_eq, hexit] at hlaid
    rw [point]
    cases hdead : t2.dead with
    | true =>
      rw [show r.dead = true from hdead] at hlaid
      exact hlaid
    | false =>
      rw [show r.dead = false from hdead] at hlaid
      exact hlaid

section

variable (h : Midway V test body w b x z p k s A r C t B breaks continues)
include h

theorem Midway.hasTy (hy : r.vars[v]? = some y) : B.HasTy y.ref y.ty :=
  h.rounded.retains.hasTy (h.drawn.ty v y hy).1

theorem Midway.made_round (hv : s.vars.size ≤ v) (hlt : v < t.vars.size) :
    v ∈ madeAll test ∨ v ∈ madeAll body := by
  by_cases hr : v < r.vars.size
  · exact .inl (h.made v hv hr)
  · exact .inr (h.rounded.made v (not_lt.1 hr) hlt)

end

/-- A loop without a step. -/
theorem Midway.outlines (h : Midway V test body w b x none p k s A r C t B breaks continues)
    (hs : Starts V b x none p s A t1 A') (hr : AllReady s A)
    (hV : ∀ v, V v ↔ v ∈ assignedAll [Node.loop test w false [] body])
    (hleave : leaveBody p (p.loop.grown breaks continues) position t = .ok (l, t2))
    (hend : endLoop p l k t2 = .ok (u, t')) :
    ∃ A', Outlines [.loop test w false [] body] s A t' A' ∧ B.Extends A' := by
  obtain rfl : V = (· ∈ assignedAll [Node.loop test w false [] body]) := funext fun v => propext (hV v)
  have hnext : p.loop.next = p.loop.head := by rw [hs.next, hs.step]; rfl
  have hcalm : t.Calm t' := Lasting.trans (Leads.holds _ _ _ hleave) (Leads.holds _ _ _ hend)
  rw [leaveBody_back (l := p.loop.grown breaks continues) hs.step hnext] at hleave
  cases hleave
  obtain ⟨B2, h2, hleft, hjump, hret⟩ := h.rounded.looping.jump_back position h.rounded.ready
  obtain ⟨A', hadvance, hready, hhead, hext, hsize⟩ := endLoop_ok h2 hleft hr hend
    (fun v => by simp [assignedAll, Node.assigned]) hs.exit ⟨rfl, rfl⟩
    (by rw [hs.grown.1]) hs.before h.refs
    ((h.rounded.evolves.carries h.drawn).trans (carries_backTo _ _ _ _))
    (fun v y hy => hret.hasTy (h.hasTy hy)) fun hd => h.dead.trans (h.quiet hd)
  obtain ⟨q, htest, htests, hbody⟩ := h.laid
  have hext' := hret.toExtends.trans hext
  refine ⟨A', ⟨hadvance, hready, ?_, fun v hv hlt => ?_, fun hn => Lasting.trans (h.calm ?_) hcalm⟩, hext'⟩
  · refine laid_node hadvance.evolves.quiet fun hlive => ?_
    have hend := h2.ended
    rw [← h2.head_cast] at hend
    rw [hnext] at hbody
    exact ⟨_, b, _, x, q, _, none, none, hend.mono hext, (htest hlive).mono hext', htests.mono hext',
      hbody.mono hext', hjump.mono hext, .inl ⟨rfl, rfl, rfl⟩, hhead⟩
  · rw [hsize, backTo_size] at hlt
    simpa [madeAll, Node.made] using h.made_round hv hlt
  · simpa [continuesAny, Node.continues] using hn

theorem Midway.outlines_step (step : List Node) {i : Label}
    (h : Midway V test body w b x (some i) p k s A r C t B breaks continues)
    (hs : Starts V b x (some i) p s A t1 A') (hr : AllReady s A)
    (hV : ∀ v, V v ↔ v ∈ assignedAll [Node.loop test w true step body])
    (hsteady : A.strict → continuesAny body = true → ∀ v ∈ madeAll test, v ∉ assignedAll body)
    (hleave : leaveBody p (p.loop.grown breaks continues) position t = .ok (l, t2))
    (hmerge : (restore k.refs >>= fun _ => merge i l.continues l.size none) t2 = .ok (u, t3)) :
    ∃ B3, Drawn t3 B3 ∧ AllReady t3 B3 ∧ B.Extends B3 ∧
      ∀ t4 B4, Draws step t3 B3 t4 B4 → ∀ t5 t', leaveStep l position t4 = .ok (u, t5) →
        endLoop p l k t5 = .ok (u, t') →
          ∃ A', Outlines [.loop test w true step body] s A t' A' ∧ B4.Extends A' := by
  obtain rfl : V = (· ∈ assignedAll [Node.loop test w true step body]) := funext fun v => propext (hV v)
  have hnext : p.loop.next = i := by rw [hs.next, hs.step]; rfl
  have hne : p.loop.next ≠ p.loop.head := fun heq => by
    refine hs.head_ne i (by simp) ?_
    rw [← heq, hnext, Int.toNat_natCast]
  have hcalm3 : t.Calm t3 := Lasting.trans (Leads.holds _ _ _ hleave) (Leads.holds _ _ _ hmerge)
  rw [leaveBody_step (l := p.loop.grown breaks continues) (z := i) hs.step] at hleave
  cases hleave
  obtain ⟨_, t2, hrestore, hmerge⟩ := bind_ok hmerge
  rw [restore_run] at hrestore
  cases hrestore
  obtain ⟨hawaits, hkept⟩ := h.rounded.next i hnext hne
  have hnew : B.strict → continues ≠ [] → ∀ v, p.loop.size ≤ v → v < r.vars.size → v ∉ assignedAll body := by
    intro hB hne v hv hlt
    refine hsteady (h.rounded.looping.within.grows.ext.strict.1 hB) ?_ v (h.made v (hs.looping.size ▸ hv) hlt)
    exact eq_true_of_ne_false fun hn => hne (h.rounded.calm hn)
  rw [hs.grown.2, show (p.loop.grown breaks continues).next = i from hnext, h.refs] at hmerge
  obtain ⟨B3, h3, hready3, hentered, hjump, hret3, hcarries, hsize3⟩ := h.rounded.looping.enter_step position
    h.rounded.ready hs.exit hawaits (hs.apart.2 i rfl).2 (hs.head_ne i (by simp)) hkept
    (fun hd => h.rounded.live (h.quiet hd)) h.drawn h.rounded.evolves h.rounded.closed hnew
    (fun v y hy => h.hasTy hy) hmerge
  refine ⟨B3, h3.within.drawn, hready3, hret3.toExtends, fun t4 B4 hdraws t5 t' hback hend => ?_⟩
  have hprog := hdraws.progress
  have h4 := h3.part hprog fun v hv => by simp [assignedAll, Node.assigned, hv]
  have hcalm5 : t4.Calm t' := Lasting.trans (Leads.holds _ _ _ hback) (Leads.holds _ _ _ hend)
  rw [leaveStep_run] at hback
  cases hback
  obtain ⟨B5, h5, hleft, hjump5, hret5⟩ := h4.jump_back position hprog.ready
  have hret4 := hprog.grows.retains.trans hret5
  have hret := hret3.trans hret4
  have hrt : r.Carries (t4.backTo p.loop (.jump p.loop.head) position) :=
    ((h.rounded.evolves.carries h.drawn).trans hcarries).trans
      ((hprog.evolves.carries h3.within.drawn).trans (carries_backTo _ _ _ _))
  obtain ⟨A', hadvance, hready, hhead, hext, hsize⟩ := endLoop_ok h5 hleft hr hend
    (fun v => by simp only [assignedAll, Node.assigned, List.append_nil, List.mem_append]; tauto)
    hs.exit ⟨rfl, rfl⟩
    (by show _ ++ (p.loop.grown breaks continues).breaks = _; rw [hs.grown.1]) hs.before h.refs hrt
    (fun v y hy => hret.hasTy (h.hasTy hy)) fun hd => h.dead.trans (h.quiet hd)
  obtain ⟨q, htest, htests, hbody⟩ := h.laid
  have hext5 := hret5.toExtends.trans hext
  have hext4 := hret4.toExtends.trans hext
  have hext' := hret.toExtends.trans hext
  refine ⟨A', ⟨hadvance, hready, ?_, fun v hv hlt => ?_, fun hn => ?_⟩, hext5⟩
  · refine laid_node hadvance.evolves.quiet fun hlive => ?_
    have hend := h5.ended
    rw [← h5.head_cast] at hend
    rw [hnext, Int.toNat_natCast] at hbody
    have hlaid := hdraws.laid
    rw [h3.within.feeds.around] at hlaid
    exact ⟨_, b, i, x, q, _, _, _, hend.mono hext, (htest hlive).mono hext', htests.mono hext',
      hbody.mono hext', hjump.mono hext4, .inr ⟨hentered.atHead.mono hext4, hlaid.mono hext5,
        hjump5.mono hext⟩, hhead⟩
  · rw [hsize, backTo_size] at hlt
    simp only [madeAll, Node.made, List.append_nil, List.mem_append]
    by_cases hlt3 : v < t3.vars.size
    · have := h.made_round hv (hsize3 ▸ hlt3)
      tauto
    · exact .inl (.inr (hdraws.made v (not_lt.1 hlt3) hlt))
  · obtain ⟨htest, hstep⟩ : continuesAny test = false ∧ continuesAny step = false := by
      simpa [continuesAny, Node.continues] using hn
    exact Lasting.trans (h.calm htest) (Lasting.trans hcalm3 (Lasting.trans (hdraws.calm hstep) hcalm5))

end Codesmith.Describe
