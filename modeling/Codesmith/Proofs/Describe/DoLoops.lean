import Codesmith.Proofs.Describe.Loops

/-!
# Loops that test at the end

A loop that starts with its body goes on to its test where the end of the body and the edges to the next
round meet. What the body makes is out of scope there, so the test finds every variable in scope. The test
leaves for the body or for the end of the loop.
-/

namespace Codesmith.Describe

open Gen (Sheet)
open Direct

variable {s t t' t1 t2 : Sketch} {A A' B B' : Sheet} {V U : Nat → Prop} {L : List Label} {x z : Label}
  {flows flows' : List EdgeFlow} {position : Position} {n v : Nat} {y : Var} {l : Loop} {p : LoopPlan} {u : Unit}
variable {c : Option Ref} {w : Option Nat}

/-! ## The beginning -/

/-- A loop has begun whose test and end are the given blocks. -/
structure StartsDo (V : Nat → Prop) (z x : Label) (p : LoopPlan) (s : Sketch) (A : Sheet) (t : Sketch)
    (B : Sheet) : Prop where
  looping : Looping V (fun _ => False) [z, x] p.loop [] s A t B
  ready : Ready t B fun _ => True
  entered : Entered p.loop.head.toNat t B
  before : p.before = s.snapshot s.vars.size
  exit : p.loop.exit = x
  next : p.loop.next = z
  apart : z ≠ x ∧ z ≠ p.loop.head.toNat
  waits : Awaits t B z s.vars.size []
  fresh : p.loop.breaks = [] ∧ p.loop.continues = []
  size : t.vars.size = s.vars.size
  dead : t.dead = s.dead
  calm : s.Calm t

theorem startDo_ok (V : Nat → Prop) (h : startDo position s = .ok (p, t1)) (hd : Drawn s A)
    (hr : AllReady s A) : ∃ z x t B, StartsDo V z x p s A t B ∧ t1 = t.inLoop p.loop := by
  replace h := get_ok h
  obtain ⟨i, t1, hnew1, h1⟩ := bind_ok h
  obtain ⟨j, t2, hnew2, h2⟩ := bind_ok h1
  obtain ⟨k, t3, hnew3, h3⟩ := bind_ok h2
  have hstart : Prepared (fun _ => True) V [] s A s.gen A := prepared_start hd hr
  obtain ⟨rfl, g1, rfl, hp1⟩ := hstart.newBlock hnew1
  obtain ⟨rfl, g2, rfl, hp2⟩ := hp1.newBlock hnew2
  obtain ⟨rfl, g3, rfl, hp3⟩ := hp2.newBlock hnew3
  obtain ⟨l, t', henter, h4⟩ := bind_ok h3
  have hcalm : Sketch.Calm { s with gen := g3 } t' := Leads.holds _ _ _ henter
  obtain ⟨B', phis, rfl, hlooping, hready, hentered, hsize, hdead, hawaits⟩ := looping_start position
    [A.chart.size + 1, A.chart.size + 2] (b := A.chart.size) (x := A.chart.size + 2) hp3 (by simp) (by simp) (by simp)
    ⟨fun y hy => by simp only [List.mem_cons] at hy ⊢; tauto,
      fun y hy => by simp only [List.mem_cons] at hy ⊢; tauto⟩ henter
  cases h4
  exact ⟨A.chart.size + 1, A.chart.size + 2, _, B', ⟨hlooping, hready, hentered, rfl, rfl, rfl, by simp,
    hawaits _ (by simp) (by simp), ⟨rfl, rfl⟩, hsize, hdead, hcalm⟩, rfl⟩

/-! ## The test -/

theorem leaveDoBody_run (l : Loop) (position : Position) (t : Sketch) : leaveDoBody l position t = (do
      merge l.next (l.continues ++ t.leaving l.size) l.size none
      return { l with continues := l.continues ++ t.leaving l.size } : Edit Loop) (t.goTo l.next position) := by
  have hbind : leaveDoBody l position t = (
      let rest (l : Loop) : Edit Loop := do
        merge l.next l.continues l.size none
        return l
      if t.dead then rest l else do
        terminate (.jump l.next) position
        rest { l with continues := l.continues ++ [t.flow l.size] }) t := rfl
  rw [hbind, Sketch.leaving, Sketch.goTo]
  by_cases hdead : t.dead = true
  · simp only [if_pos hdead, List.append_nil]
  · simp only [if_neg hdead]
    rfl

/-- The test starts where the end of the body and the edges to the next round meet. -/
theorem Looping.enter_test {continues : List EdgeFlow} (position : Position)
    (h : Looping V U [z, x] l flows s A t B) (hr : AllReady t B) (hx : l.exit = x)
    (hz : Awaits t B z l.size continues) (hzx : z ≠ x) (hzh : z ≠ l.head.toNat)
    (hlive : s.dead = true → continues = [])
    (hclosed : ∀ (v : Nat) y, l.size ≤ v → t.vars[v]? = some y → t.isClosed y = true)
    (hrun : Describe.merge z (continues ++ t.leaving l.size) l.size none (t.goTo z position) = .ok (u, t')) :
    ∃ B', Looping V U [x] l flows s A t' B' ∧ AllReady t' B' ∧ Entered z t' B' ∧
      JumpsTo B' (point t B) z ∧ B.Retains B' ∧ t'.vars.size = t.vars.size := by
  have hxnat : l.exit.toNat = x := by rw [hx, Int.toNat_natCast]
  have hzx' : z ≠ l.exit.toNat := hxnat.symm ▸ hzx
  obtain ⟨halike, B1, h1, hleft, hz1, hjump, hg⟩ := h.goTo position hr hz (by simp) hzx'
  obtain ⟨B', h', hentered, hmerged⟩ := h1.merge [x] hleft hz1 (by simp) hzx' hzh (h.live_of_edges hlive)
    ⟨by simp, by simp⟩ (by simp [hxnat]) hrun
  refine ⟨B', h', hentered.ready fun hdead v y _ hy hopen => ?_, hentered, hjump.mono hmerged.grows.ext,
    hg.retains.trans hmerged.grows.retains, hmerged.size.trans (by rw [goTo_eq])⟩
  have hne : continues ++ t.leaving l.size ≠ [] := fun hnil => by
    rw [hmerged.dead.2 hnil] at hdead
    cases hdead
  refine hmerged.known hne v y (not_le.1 fun hv => ?_) hy hopen
  -- What the body has made is out of scope.
  obtain ⟨y1, hy1, -, hscope⟩ := hmerged.alike.back hmerged.size hy
  have hy2 : t.vars[v]? = some y1 := by
    rw [goTo_eq] at hy1
    exact hy1
  have hopen1 : t.isClosed y1 = false := by
    rw [← halike.isClosed rfl, ← hmerged.alike.isClosed hscope]
    exact hopen
  rw [hclosed v y1 hv hy2] at hopen1
  cases hopen1

/-! ## The end -/

theorem Awaits.perm (h : Awaits s A x n flows) (hp : flows.Perm flows') : Awaits s A x n flows' :=
  { h with
    nodup := (hp.map _).nodup_iff.1 h.nodup
    all := fun p hp' he => (hp.map _).mem_iff.1 (h.all p hp' he)
    each := fun f hf => h.each f (hp.mem_iff.2 hf) }

theorem Looping.perm (h : Looping V U L l flows s A t B) (hp : flows.Perm flows') :
    Looping V U L l flows' s A t B :=
  { h with
    exit := h.exit.perm hp
    live := fun hne => h.live fun hnil => hne (List.nil_perm.1 (hnil ▸ hp)) }

/-- The end of the test of a loop: control goes back to its body, or to its end. -/
theorem Looping.back_if (position : Position) (h : Looping V U [x] l flows s A t B)
    (hr : AllReady t B) (hx : l.exit = x) (hc : Checked t c w) :
    ∃ B', Looping V U [x] l (t.leavingIf w l.size ++ flows) s A
        (t.backTo l (headExit c l.head l.exit) position) B' ∧ B'.Left ∧
      Tests B' w (point t B) l.head.toNat x ∧ B.Retains B' := by
  cases w with
  | none =>
    obtain rfl : c = none := hc
    obtain ⟨B', h', hleft, hjump, hret⟩ := h.jump_back position hr
    exact ⟨B', h', hleft, hjump, hret⟩
  | some v =>
    obtain ⟨y, hy, hopen, hbool, rfl⟩ := hc
    have hne : l.head ≠ l.exit := h.fits.exit_ne_head.symm
    have htargets : (Gen.Exit.branch y.ref l.head l.exit).targets = [l.head, l.exit] := if_neg hne
    have hfits : (Gen.Exit.branch y.ref l.head l.exit).Fits B.chart.sig.result B.chart.size B.chart.ty := by
      rw [← h.head_cast, ← h.exit_cast]
      exact ⟨(h.within.drawn.ty v y hy).1.2.trans hbool,
        ⟨Int.natCast_nonneg _, Int.ofNat_lt.2 h.fits.inside⟩,
        Int.natCast_nonneg _, Int.ofNat_lt.2 h.exit.pending.lt⟩
    obtain ⟨B', h', hleft, hend, hret, -⟩ := h.back position hr hfits
      (fun hlive r hr' => by
        rw [List.mem_singleton.1 hr']
        exact (hr.env hlive v y trivial hy hopen).held)
      (by simp [htargets]) fun k hk => by
        rw [htargets] at hk
        simp only [List.mem_cons, List.not_mem_nil, or_false] at hk
        exact hk.imp (fun hk => by rw [← hk, Int.toNat_natCast]) fun hk => by rw [← hk, Int.toNat_natCast]
    rw [if_pos (by simp [htargets])] at h'
    refine ⟨B', h'.perm List.perm_append_comm, hleft, fun k j hq => ?_, hret⟩
    rw [point] at hq
    split at hq
    · cases hq
    rename_i hdead
    cases hq
    have hlive : t.dead = false := by simpa using hdead
    refine ⟨y.ref, hret.toExtends.knows _ _ _ _ (hr.env hlive v y trivial hy hopen), ?_⟩
    rw [h.head_cast, ← hx]
    exact hend hlive

theorem endDo_run (p : LoopPlan) (l : Loop) (c : Option Ref) (position : Position) (t : Sketch) :
    endDo p l c position t = (do
      let assigned ← popFrame
      merge l.exit ((if c.isNone || t.dead then [] else [t.flow l.size]) ++ l.breaks) l.size none
      keepUnassigned p.before assigned : Edit Unit) (t.backTo l (headExit c l.head l.exit) position) := by
  have hbind : endDo p l c position t = (
      let rest : Edit Unit := do
        let assigned ← popFrame
        merge l.exit ((if c.isNone || t.dead then [] else [t.flow l.size]) ++ l.breaks) l.size none
        keepUnassigned p.before assigned
      if !t.dead then do
        terminate (headExit c l.head l.exit) position
        backEdge l (t.flow l.size)
        rest
      else rest) t := by
    cases c <;> rfl
  rw [hbind, Sketch.backTo]
  dsimp only
  by_cases hdead : t.dead = true
  · rw [if_neg (by simp [hdead]), if_pos hdead]
  · rw [if_pos (by simpa using hdead), if_neg hdead]
    have hback := backEdge_run l (t.flow l.size) (t.exits (headExit c l.head l.exit) position)
    exact (bind_of_ok (terminate_run _ position t)).trans (bind_of_ok hback)

theorem endDo_ok {l' : Loop} (h : Looping V U [x] l flows s A t B) (hr : AllReady t B)
    (hr0 : AllReady s A) (hc : Checked t c w) (hrun : endDo p l' c position t = .ok (u, t'))
    (hUV : ∀ v, U v ↔ V v) (hx : l.exit = x)
    (hl : l'.exit = l.exit ∧ l'.head = l.head ∧ l'.size = l.size ∧ l'.phis = l.phis)
    (hflows : l'.breaks = flows) (hbefore : p.before = s.snapshot s.vars.size) :
    ∃ A', Advance V s A t' A' ∧ Ready t' A' (· < s.vars.size) ∧ AtHead A' (point t' A') x ∧ B.Extends A' ∧
      Tests A' w (point t B) l.head.toNat x ∧ EndsAt A' A.chart.current A.top (.jump l.head) ∧
      t'.vars.size = t.vars.size := by
  obtain ⟨B1, h1, hleft, htests, hret⟩ := h.back_if position hr hx hc
  have hexits : (if c.isNone || t.dead then [] else [t.flow l.size]) = t.leavingIf w l.size := by
    rw [Sketch.leavingIf, Sketch.leaving]
    cases w with
    | none =>
      rw [show c = none from hc]
      rfl
    | some v =>
      obtain ⟨y, -, -, -, rfl⟩ := hc
      rfl
  have hback : t.backTo l' (headExit c l'.head l'.exit) position =
      t.backTo l (headExit c l.head l.exit) position := by
    rw [Sketch.backTo, Sketch.backTo, Loop.returned, Loop.returned, hl.1, hl.2.1, hl.2.2.1, hl.2.2.2]
  rw [endDo_run, hback, hl.1, hl.2.2.1, hexits, hflows, hbefore, hx, h.size] at hrun
  obtain ⟨a, t1, hpop, hrun⟩ := bind_ok hrun
  obtain ⟨_, t2, hmerge, hrun⟩ := bind_ok hrun
  cases hrun
  rw [hx, h.size] at h1
  obtain ⟨-, ht1, -⟩ := popFrame_ok h1.framed hpop
  obtain ⟨A', hadvance, hready, hhead, hext, hsize⟩ := h1.close hleft hr0 hUV hx hpop
    (alike_gen t1 t1.gen) rfl rfl rfl (by rw [ht1]; exact h1.within.quiet)
    (by rw [ht1]; exact fun v y hy => (h1.within.drawn.ty v y hy).1) hmerge
  exact ⟨A', hadvance, hready, hhead, hret.toExtends.trans hext, htests.mono hext, h1.ended.mono hext,
    hsize.trans (backTo_size _ _ _ _)⟩

/-! ## Whole loops -/

theorem draws_doLoop (hstart : startDo position s.inner = .ok (p, t1)) (body test : List Node) (w : Option Nat)
    (hd : Drawn s A) (hr : AllReady s A) :
    ∃ B1, Drawn t1 B1 ∧ AllReady t1 B1 ∧ A.Extends B1 ∧
      ∀ t2 B2, Draws body t1 B1 t2 B2 → Closes t1 t2 → ∀ l t3 l' t4,
        popLoop p.loop t2 = .ok (l, t3) → leaveDoBody l position t3 = .ok (l', t4) →
          ∃ B4, Drawn t4 B4 ∧ AllReady t4 B4 ∧ B2.Extends B4 ∧
            ∀ t5 B5, Draws test t4 B4 t5 B5 → ∀ c t6 t', Checked t5 c w →
              endDo p l' c position t5 = .ok (u, t6) → closeScope t6 = .ok (u, t') →
                ∃ A', Draws [.doLoop body test w] s A t' A' ∧ B5.Extends A' := by
  have hassigned : ∀ v, v ∈ assignedAll [Node.doLoop body test w] ↔ v ∈ assignedAll body ∨ v ∈ assignedAll test := by
    simp [assignedAll, Node.assigned]
  obtain ⟨z, x, t, B, hs, rfl⟩ := startDo_ok (· ∈ assignedAll [Node.doLoop body test w]) hstart hd.inner hr.inner
  have hexit : p.loop.exit.toNat = x := by rw [hs.exit, Int.toNat_natCast]
  have hne : p.loop.next ≠ p.loop.head := fun heq => hs.apart.2 (by rw [← heq, hs.next, Int.toNat_natCast])
  have hcontinues : p.loop.Continues [z, x] t B :=
    .inr ⟨z, hs.next, by simp, hexit.symm ▸ hs.apart.1, hs.looping.size ▸ hs.waits⟩
  refine ⟨B, hs.looping.drawn_inLoop hcontinues, ⟨hs.ready.exit, hs.ready.dead, hs.ready.env⟩,
    hs.looping.within.grows.ext, fun t2 B2 hbody hclosed l t3 l' t4 hpop hleave => ?_⟩
  obtain ⟨breaks, continues, hloops, hround⟩ := hs.looping.round hcontinues hbody hclosed
    fun v hv => (hassigned v).2 (.inl hv)
  rw [popLoop_run hloops] at hpop
  cases hpop
  have hcalm4 : Sketch.Calm { t2 with loops := t.loops } t4 := Leads.holds _ _ _ hleave
  have hgrown : (p.loop.grown breaks continues).breaks = breaks ∧
      (p.loop.grown breaks continues).continues = continues := by
    simp [Loop.grown, hs.fresh]
  rw [leaveDoBody_run] at hleave
  obtain ⟨_, _, hmerge, hleave⟩ := bind_ok hleave
  cases hleave
  rw [hgrown.2, show (p.loop.grown breaks continues).next = z from hs.next] at hmerge
  obtain ⟨hawaits, -⟩ := hround.next z hs.next hne
  obtain ⟨B4, h4, hready4, hentered4, hjump, hret4, hsize4⟩ := hround.looping.enter_test position hround.ready
    hs.exit hawaits hs.apart.1 hs.apart.2 (fun hdead => hround.live (hs.looping.within.quiet hdead))
    (fun v y hv hy => hround.closed v y (by rw [hs.size, ← hs.looping.size]; exact hv) hy) hmerge
  refine ⟨B4, h4.within.drawn, hready4, hret4.toExtends, fun t5 B5 htest c t6 t' hc hend hclose => ?_⟩
  have hprog := htest.progress
  have hcalm6 : t5.Calm t6 := Leads.holds _ _ _ hend
  have h5 := h4.part hprog fun v hv => (hassigned v).2 (.inr hv)
  obtain ⟨A', hadvance, hready, hhead, hext, htests, hended, hsize⟩ := endDo_ok h5 hprog.ready hr.inner hc hend
    (fun v => by rw [hassigned]; simp) hs.exit ⟨rfl, rfl, rfl, rfl⟩ hgrown.1 hs.before
  have hext4 := hprog.grows.ext.trans hext
  have hext2 := hret4.toExtends.trans hext4
  have houtlines : Outlines [.doLoop body test w] s.inner A t6 A' := by
    refine ⟨hadvance, hready, laid_node hadvance.evolves.quiet fun hlive => ?_, fun v hv hlt => ?_, fun hn => ?_⟩
    · have hlaid := hround.laid
      rw [hs.entered.point_eq, hs.dead, hlive, hexit, hs.next, Int.toNat_natCast] at hlaid
      have hlaid' := htest.laid
      rw [h4.within.feeds.around] at hlaid'
      rw [← hs.looping.head_cast] at hended
      exact ⟨_, z, x, _, _, _, hended, LaidAll.mono hext2 _ hlaid, hjump.mono hext4,
        hentered4.atHead.mono hext4, LaidAll.mono hext _ hlaid', htests, hhead⟩
    · rw [hsize] at hlt
      simp only [madeAll, Node.made, List.append_nil, List.mem_append]
      by_cases hlt4 : v < t4.vars.size
      · exact .inl (hround.made v (hs.size ▸ hv) (hsize4 ▸ hlt4))
      · exact .inr (htest.made v (not_lt.1 hlt4) hlt)
    · have hn : continuesAny test = false := by simpa [continuesAny, Node.continues] using hn
      exact Lasting.trans hs.calm (Lasting.trans hcalm4 (Lasting.trans (htest.calm hn) hcalm6))
  exact ⟨A', houtlines.scoped (draws_nil hd.inner hr.inner) hd hclose, hext⟩

end Codesmith.Describe
