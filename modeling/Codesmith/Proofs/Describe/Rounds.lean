import Codesmith.Proofs.Describe.Conditionals

/-!
# Rounds of loops

A loop makes blocks of its own, of which the head keeps every variable in a value of its own. Edges back to
the head bring the values with which the next round starts, and edges to the end of the loop are noted as
they are drawn. `Looping` says what stays while the parts of a loop are described, in whatever order.
-/

namespace Codesmith

namespace Gen.Sheet

variable {A B : Sheet}

/-- More was drawn on a sheet, and the values keep their types. -/
structure Retains (A B : Sheet) : Prop extends A.Extends B where
  hasTy : ∀ {r ty}, A.HasTy r ty → B.HasTy r ty

theorem Grows.retains {n : Nat} {V : Nat → Prop} {T J U : Label → Prop} (h : A.Grows n V T J U B) :
    A.Retains B :=
  ⟨h.ext, h.hasTy⟩

theorem Retains.trans {C : Sheet} (h : A.Retains B) (h' : B.Retains C) : A.Retains C :=
  ⟨h.toExtends.trans h'.toExtends, fun hr => h'.hasTy (h.hasTy hr)⟩

end Gen.Sheet

namespace Describe

open Gen
open Direct

variable {s t t' : Sketch} {A B B' : Sheet} {V N U U' : Nat → Prop} {L L' : List Label} {b x : Label}
  {flows : List EdgeFlow} {nodes : List Node} {position : Position} {n m v : Nat} {y : Var} {l : Loop}
  {T J K : Label → Prop}

/-- The loop whose next round starts at its head. -/
def Loop.tight (l : Loop) : Loop :=
  { l with next := l.head }

/-- A loop has begun, and some of its parts have been described, which assign to the variables in `U`. The
flows list the edges to its end. -/
structure Looping (V U : Nat → Prop) (L : List Label) (l : Loop) (flows : List EdgeFlow) (s : Sketch)
    (A : Sheet) (t : Sketch) (B : Sheet) : Prop where
  within : Within (fun _ => True) V L s A t B
  exit : Awaits t B l.exit.toNat l.size flows
  fits : l.tight.Fits t B
  size : l.size = s.vars.size
  alive : B.dead l.head.toNat → s.dead = true
  head_new : A.chart.size ≤ l.head.toNat
  exit_mem : l.exit.toNat ∈ L
  ended : EndsAt B A.chart.current A.top (.jump l.head)
  framed : Framed U s t
  live : flows ≠ [] → s.dead = false

namespace Looping

section

variable (h : Looping V U L l flows s A t B)
include h

theorem head_cast : (l.head.toNat : Int) = l.head :=
  h.fits.head_cast

theorem exit_cast : (l.exit.toNat : Int) = l.exit :=
  h.fits.exit_cast

end

section

variable (h : Looping V U L l flows s A t B) (hw : Within (fun _ => True) V L' s A t' B')
  (hg : B.Grows m N T J K B') (hs : t.Carries t') (hT : ∀ y, T y → y = B.chart.current)
  (hJ : ∀ y, J y → y ≠ l.exit.toNat ∧ y ≠ l.head.toNat)
include h hw hg hs hT hJ

/-- A step that leaves the head of the loop as it is. -/
theorem move {flows' : List EdgeFlow} (hexit : Awaits t' B' l.exit.toNat l.size flows')
    (hL : l.exit.toNat ∈ L') (hframed : Framed U' s t') (hlive : flows' ≠ [] → s.dead = false) :
    Looping V U' L' l flows' s A t' B' where
  within := hw
  exit := hexit
  fits := by
    have hblocks : ∀ y : Label, (y : Int) ∈ l.tight.blocks → ¬ J y := by
      intro y hy hj
      obtain ⟨hexit, hhead⟩ := hJ y hj
      have hcases : (y : Int) = l.exit ∨ (y : Int) = l.head := by
        simpa [Loop.blocks, Loop.tight] using hy
      rcases hcases with heq | heq
      · exact hexit (by rw [← heq, Int.toNat_natCast])
      · exact hhead (by rw [← heq, Int.toNat_natCast])
    refine h.fits.mono hg hw.drawn.shows.sound hs hT hblocks (fun hd => hw.quiet (h.alive hd))
      fun v r hr hne => ?_
    obtain ⟨y, hy, hopen, -⟩ := h.fits.phis v r hr hne
    have hv : v < s.vars.size := ((List.getElem?_eq_some_iff.1 hr).1.trans_le h.fits.length).trans_eq h.size
    obtain ⟨y1, hy1, -, hclosed1⟩ := h.within.drifts.var h.within.start (Array.getElem?_eq_getElem hv)
    cases hy.symm.trans hy1
    obtain ⟨y2, hy2, -, hclosed2⟩ := hw.drifts.var hw.start (Array.getElem?_eq_getElem hv)
    exact ⟨y2, hy2, hclosed2.trans (hclosed1.symm.trans hopen)⟩
  size := h.size
  alive hd := h.alive (hg.alive _ h.fits.inside (fun hy => (hJ _ hy).2 rfl) hd)
  head_new := h.head_new
  exit_mem := hL
  ended := h.ended.mono hg.ext
  framed := hframed
  live := hlive

/-- A step that concerns neither the head of the loop nor its end. -/
theorem step (hK : ¬ K l.exit.toNat) (hL : l.exit.toNat ∈ L') (hframed : Framed U' s t') :
    Looping V U' L' l flows s A t' B' :=
  h.move hw hg hs hT hJ (h.exit.mono hg hw.drawn.shows.sound hs (fun hy => h.exit.ne (hT _ hy))
    (fun hy => (hJ _ hy).1 rfl) hK) hL hframed h.live

end

section

variable (h : Looping V U L l flows s A t B)
include h

theorem alter (hs : t.Alike t') (hsize : t'.vars.size = t.vars.size) (hgen : t'.gen = t.gen)
    (hframes : t'.frames = t.frames) (hdead : s.dead = true → t'.dead = true)
    (hvars : ∀ (v : Nat) y, t'.vars[v]? = some y → B.HasTy y.ref y.ty) : Looping V U L l flows s A t' B := by
  obtain ⟨f, hf, hU⟩ := h.framed
  exact h.step (h.within.alter hs hsize hgen hdead hvars) (Sheet.grows_self B) hs.carries
    (fun _ hy => absurd hy id) (fun _ hy => absurd hy id) id h.exit_mem ⟨f, hframes.trans hf, hU⟩

theorem part (hp : Progress N t B t' B') (hN : ∀ v, N v → V v) :
    Looping V (fun v => U v ∨ N v) L l flows s A t' B' := by
  have hw : Within (fun _ => True) V L s A t' B' :=
    h.within.part hp (fun v _ hv => hN v hv) fun _ _ _ _ hv => absurd trivial hv
  exact h.step hw hp.grows (hp.evolves.carries h.within.drawn) (fun _ hy => hy) (fun _ hy => absurd hy id)
    (h.within.not_target (h.within.own _ h.exit_mem)) h.exit_mem (h.framed.grow hp.evolves.frames)

end

end Looping

/-! ## The head -/

/-- More than a block has to bring may be asked of a block to which no edge leads. -/
theorem Awaits.resize (h : Awaits s A x n []) (hm : m ≤ s.vars.size) : Awaits s A x m [] :=
  { h with
    size := hm
    each := fun _ hf => absurd hf List.not_mem_nil }

/-- The head of a loop is entered after the blocks of the loop have been made. -/
theorem looping_start {g : Generator} {next : BlockId} {k : Loop} (position : Position) (L' : List Label)
    (h : Prepared (fun _ => True) V L s A g B) (hxb : x ≠ b) (hb : b ∈ L) (hx : x ∈ L')
    (hL : Remain b L L')
    (hrun : enterLoop { size := s.vars.size, next, exit := x, head := b } position { s with gen := g } =
      .ok (k, t')) :
    ∃ B' phis, k = { size := s.vars.size, next, exit := x, head := b, phis } ∧
      Looping V (fun _ => False) L' k [] s A { t' with frames := .empty :: t'.frames } B' ∧
      AllReady { t' with frames := .empty :: t'.frames } B' ∧
      Entered b { t' with frames := .empty :: t'.frames } B' ∧
      t'.vars.size = s.vars.size ∧ t'.dead = s.dead ∧
      ∀ y ∈ L', y ≠ b → Awaits { t' with frames := .empty :: t'.frames } B' y s.vars.size [] := by
  have hhead := h.waits b hb
  obtain ⟨B', phis, rfl, hwithin, hentered, hbegun⟩ := enterLoop_ok h.within h.ready (fun h => h) hhead rfl rfl rfl
    hb hL hrun
  have hframes : t'.Alike { t' with frames := .empty :: t'.frames } :=
    ⟨rfl, rfl, rfl, rfl, rfl, rfl, rfl, rfl, fun _ y hy => ⟨y, hy, rfl, rfl⟩⟩
  have hsound := hwithin.drawn.shows.sound
  have hawaits : ∀ y ∈ L', y ≠ b → Awaits { t' with frames := .empty :: t'.frames } B' y s.vars.size [] :=
    fun y hy hne =>
      have hw := h.waits y (hL.sub y hy)
      (hw.mono hbegun.grows hsound hbegun.alike.carries hw.ne hne hne).alter hsound hframes.carries
  have hend := hbegun.ended
  rw [Sheet.top, Sheet.last, h.chart.1, h.chart.2] at hend
  refine ⟨B', phis, rfl, ?_, ⟨hbegun.ready.exit, hbegun.ready.dead, hbegun.ready.env⟩,
    ⟨hentered.current, hentered.exit, hentered.last, hentered.dead⟩, hbegun.size, hbegun.dead, hawaits⟩
  exact {
    within := hwithin.alter hframes rfl rfl hwithin.quiet fun v y hy => (hwithin.drawn.ty v y hy).1
    exit := hawaits x hx hxb
    fits := {
      nonneg := by simp [Loop.blocks, Loop.tight]
      size := hbegun.size.ge
      exit := (hawaits x hx hxb).toWaiting
      next := fun hne => absurd rfl hne
      exit_ne_next := fun heq => hxb (Int.ofNat_inj.1 heq)
      exit_ne_head := fun heq => hxb (Int.ofNat_inj.1 heq)
      inside := hhead.pending.lt.trans_le hbegun.grows.size
      inner := hhead.pending.ne
      alive := hentered.dead.1
      heads := hbegun.heads
      length := hbegun.length
      phis := hbegun.phis }
    size := rfl
    alive := fun hd => hbegun.dead.symm.trans (hentered.dead.1 hd)
    head_new := h.within.own b hb
    exit_mem := hx
    ended := hend
    framed := framed_push (by rw [hbegun.frames])
    live := fun hne => absurd rfl hne }

/-! ## Inside the rounds -/

/-- The sketch with a loop around what is described next. -/
def Sketch.inLoop (s : Sketch) (l : Loop) : Sketch :=
  { s with loops := l :: s.loops }

/-- The next round starts at the head, or at a block of the loop that waits. -/
def Loop.Continues (l : Loop) (L : List Label) (s : Sketch) (A : Sheet) : Prop :=
  l.next = l.head ∨ ∃ z : Label, l.next = z ∧ z ∈ L ∧ z ≠ l.exit.toNat ∧ Awaits s A z l.size []

theorem Looping.drawn_inLoop (h : Looping V U L l flows s A t B) (hn : l.Continues L t B) :
    Drawn (t.inLoop l) B := by
  have hfits : l.Fits t B := by
    rcases hn with hnext | ⟨z, hz, -, hne, hw⟩
    · have htight : l.tight = l := by
        cases l
        cases hnext
        rfl
      exact htight ▸ h.fits
    · refine { h.fits with nonneg := fun y hy => ?_, next := fun _ => ?_, exit_ne_next := ?_ }
      · simp only [Loop.blocks, List.mem_cons, List.not_mem_nil, or_false] at hy
        rcases hy with rfl | rfl | rfl
        · rw [← h.exit_cast]
          exact Int.natCast_nonneg _
        · rw [hz]
          exact Int.natCast_nonneg _
        · rw [← h.head_cast]
          exact Int.natCast_nonneg _
      · rw [hz, Int.toNat_natCast]
        exact hw.toWaiting
      · rw [hz]
        intro heq
        rw [heq, Int.toNat_natCast] at hne
        exact hne rfl
  have hnew : ∀ y ∈ l.blocks, ∃ z : Label, y = z ∧ A.chart.size ≤ z := by
    intro y hy
    simp only [Loop.blocks, List.mem_cons, List.not_mem_nil, or_false] at hy
    rcases hy with rfl | rfl | rfl
    · exact ⟨_, h.exit_cast.symm, h.within.own _ h.exit_mem⟩
    · rcases hn with hnext | ⟨z, hz, hzL, -⟩
      · exact ⟨_, hnext.trans h.head_cast.symm, h.head_new⟩
      · exact ⟨z, hz, h.within.own z hzL⟩
    · exact ⟨_, h.head_cast.symm, h.head_new⟩
  have hloops : ∀ k ∈ l :: t.loops, k.Fits (t.inLoop l) B := fun k hk => by
    rcases List.mem_cons.1 hk with rfl | hk
    · exact { hfits with }
    · exact { h.within.drawn.loops k hk with }
  refine { h.within.drawn with
    loops := hloops
    apart := List.pairwise_cons.2 ⟨fun k hk y hy => ?_, h.within.drawn.apart⟩ }
  obtain ⟨z, rfl, hz⟩ := hnew y hy
  exact h.within.notMem_blocks hk hz

/-- What has to be known of a part inside the rounds. -/
structure Rounded (V U : Nat → Prop) (L : List Label) (l : Loop) (flows : List EdgeFlow)
    (nodes : List Node) (s : Sketch) (A : Sheet) (t : Sketch) (B : Sheet) (t' : Sketch) (B' : Sheet)
    (breaks continues : List EdgeFlow) : Prop where
  looping : Looping V (fun v => U v ∨ v ∈ assignedAll nodes) L l (flows ++ breaks) s A t' B'
  ready : Ready t' B' fun _ => True
  evolves : Evolves (· ∈ assignedAll nodes) t t'
  laid : LaidAll B' (some ⟨l.exit.toNat, l.next.toNat⟩) nodes (point t B) (point t' B')
  retains : B.Retains B'
  live : t.dead = true → continues = []
  at_head : l.next = l.head → continues = []
  calm : continuesAny nodes = false → continues = []
  next : ∀ z : Label, l.next = z → l.next ≠ l.head → Awaits t' B' z l.size continues ∧
    ∀ f ∈ continues, Kept (· ∈ assignedAll nodes) t B' f
  other : ∀ y m gs, y ∈ L → y ≠ l.exit.toNat → (y : Int) ≠ l.next → Awaits t B y m gs →
    Awaits t' B' y m gs
  closed : ∀ (v : Nat) x, t.vars.size ≤ v → t'.vars[v]? = some x → t'.isClosed x = true
  made : ∀ v, t.vars.size ≤ v → v < t'.vars.size → v ∈ madeAll nodes

theorem Looping.round (h : Looping V U L l flows s A t B) (hn : l.Continues L t B)
    (hdraws : Draws nodes (t.inLoop l) B t' B') (hclosed : Closes (t.inLoop l) t') (hV : ∀ v ∈ assignedAll nodes, V v) :
    ∃ breaks continues, t'.loops = l.grown breaks continues :: t.loops ∧
      Rounded V U L l flows nodes s A t B { t' with loops := t.loops } B' breaks continues := by
  have hp := hdraws.progress
  obtain ⟨breaks, continues, hloops, hfed⟩ := hp.feeds.inside l t.loops rfl
  refine ⟨breaks, continues, hloops, ?_⟩
  have hev : Evolves (· ∈ assignedAll nodes) t { t' with loops := t.loops } := { hp.evolves with }
  have hcarries := hev.carries h.within.drawn
  have htarget : ∀ y, (t.inLoop l).Targets y → y = l.exit.toNat ∨ (y : Int) = l.next := by
    rintro y ⟨k, hk, heq⟩
    cases hk
    exact heq.imp_left fun heq => by rw [← heq, Int.toNat_natCast]
  have hnew : ∀ y, (t.inLoop l).Targets y → A.chart.size ≤ y := by
    intro y hy
    rcases htarget y hy with rfl | heq
    · exact h.within.own _ h.exit_mem
    · rcases hn with hnext | ⟨z, hz, hzL, -⟩
      · rw [hnext, ← h.head_cast] at heq
        exact (Int.ofNat_inj.1 heq).symm ▸ h.head_new
      · exact Int.ofNat_inj.1 (heq.trans hz) ▸ h.within.own z hzL
  have hdrawn : Drawn { t' with loops := t.loops } B' := by
    have hmem : ∀ k ∈ t.loops, k ∈ t'.loops := fun k hk => hloops ▸ List.mem_cons_of_mem _ hk
    have hapart := hp.drawn.apart
    rw [hloops] at hapart
    exact { hp.drawn with
      loops := fun k hk => { hp.drawn.loops k (hmem k hk) with }
      apart := (List.pairwise_cons.1 hapart).2 }
  have hw : Within (fun _ => True) V L s A { t' with loops := t.loops } B' := {
    start := h.within.start
    drawn := hdrawn
    drifts := h.within.drifts.trans hev.toDrifts h.within.drawn
    quiet := fun hd => hev.quiet (h.within.quiet hd)
    grows := by
      refine h.within.grows.trans hp.grows h.within.size_le (fun v _ hv => hV v hv) (fun y hy heq => ?_)
        (fun _ _ h => h) fun y hy hU => absurd (hnew y hU) (not_le.2 hy)
      exact (h.within.grows.current (heq ▸ hy)).imp heq.trans id
    idle := fun y hy => h.within.idle y (hp.idle y hy)
    own := h.within.own
    feeds := h.within.feeds.mono h.within.grows hp.grows h.within.drawn hcarries rfl
      fun k hk y hy hU => h.within.notMem_blocks hk (hnew y hU) hy }
  have hsound := hp.drawn.shows.sound
  have hback : t'.Carries { t' with loops := t.loops } := fun _ y hy => ⟨y, hy, rfl, fun hopen => hopen⟩
  have hsize : l.size ≤ t'.vars.size := h.exit.size.trans hcarries.size_le
  have hexit : Awaits { t' with loops := t.loops } B' l.exit.toNat l.size (flows ++ breaks) :=
    h.exit.arrive (hfed.exit.carry hback hsize) hp.grows hsound hcarries h.exit.ne id
  exact {
    looping := by
      refine h.move hw hp.grows hcarries (fun _ hy => hy) (fun _ hy => absurd hy id) hexit h.exit_mem
        (h.framed.grow hp.evolves.frames) fun hne => ?_
      by_cases hnil : flows = []
      · cases hdead : s.dead with
        | false => rfl
        | true =>
          have hbreaks : breaks = [] := (hfed.live (h.within.quiet hdead)).1
          exact absurd (by rw [hnil, hbreaks]; rfl) hne
      · exact h.live hnil
    ready := ⟨hp.ready.exit, hp.ready.dead, hp.ready.env⟩
    evolves := hev
    laid := hdraws.laid
    retains := hp.grows.retains
    live := fun hdead => (hfed.live hdead).2
    at_head := hfed.no_next
    calm := fun hn => by
      have hcalm := hdraws.calm hn
      rw [Sketch.Calm, Sketch.continues, hloops] at hcalm
      exact List.append_right_eq_self.1 hcalm
    next := fun z hz hne => by
      rcases hn with hnext | ⟨z', hz', -, -, hw'⟩
      · exact absurd hnext hne
      obtain rfl := Int.ofNat_inj.1 (hz.symm.trans hz')
      have harrive := hfed.next hne
      rw [hz, Int.toNat_natCast] at harrive
      have := hw'.arrive (harrive.carry hback hsize) hp.grows hsound hcarries hw'.ne id
      exact ⟨this, fun f hf => hfed.kept f hf⟩
    other := fun y m gs hy hexit hnext hw' => by
      refine hw'.mono hp.grows hsound hcarries hw'.ne id fun hU => ?_
      exact (htarget y hU).elim hexit hnext
    closed := hclosed
    made := hdraws.made }

/-! ## Edges back -/

/-- The sketch that has left its block for the head of a loop, among others, if control gets there. -/
def Sketch.backTo (s : Sketch) (l : Loop) (e : Gen.Exit) (position : Position) : Sketch :=
  if s.dead then s
  else { s with
    gen := ((s.gen.setPosition (some position)).terminate e).addPairs s.gen.current (l.returned s) }

theorem carries_backTo (s : Sketch) (l : Loop) (e : Exit) (position : Position) :
    s.Carries (s.backTo l e position) := by
  rw [Sketch.backTo]
  split
  · exact .refl s
  · exact (alike_gen s _).carries

theorem backTo_size (s : Sketch) (l : Loop) (e : Exit) (position : Position) :
    (s.backTo l e position).vars.size = s.vars.size := by
  rw [Sketch.backTo]
  split <;> rfl

/-- Control goes back to the head of the loop, or to its end. -/
theorem Looping.back {e : Exit} (position : Position) (h : Looping V U L l flows s A t B)
    (hr : AllReady t B) (hfits : e.Fits B.chart.sig.result B.chart.size B.chart.ty)
    (hheld : t.dead = false → ∀ r ∈ e.reads, B.Held B.chart.current B.top r)
    (hhead : l.head ∈ e.targets)
    (hother : ∀ y : Label, (y : Int) ∈ e.targets → y = l.head.toNat ∨ y = l.exit.toNat) :
    ∃ B', Looping V U L l (flows ++ if l.exit ∈ e.targets then t.leaving l.size else []) s A
        (t.backTo l e position) B' ∧ B'.Left ∧ (t.dead = false → EndsAt B' B.chart.current B.top e) ∧
      B.Retains B' ∧ ∀ (y : Label) m gs, (y : Int) ∉ e.targets → Awaits t B y m gs →
          Awaits (t.backTo l e position) B' y m gs := by
  by_cases hdead : t.dead = true
  · rw [Sketch.backTo, if_pos hdead, Sketch.leaving, if_pos hdead, ite_self, List.append_nil]
    exact ⟨B, h, fun hlive => absurd (hr.dead.2 hdead) hlive, fun hlive => absurd hdead (by simp [hlive]),
      (Sheet.grows_self B).retains, fun _ _ _ _ hw => hw⟩
  have hlive : t.dead = false := by simpa using hdead
  have hs : s.dead = false := by
    cases hs : s.dead with
    | false => rfl
    | true => exact absurd (h.within.quiet hs) hdead
  have hc : B.chart.Exits e _ := Sheet.exits_joinPairs B.chart e (l.returned t)
  have hshows := h.fits.shows_back position h.within.drawn (hr.mono fun _ _ => trivial) hlive hfits
    (hheld hlive) hhead fun y hy hne => by
      rcases hother y hy with rfl | rfl
      · exact absurd h.head_cast hne
      · exact h.exit.pending
  have hw := h.within.leave hr hc hshows fun y hy => by
    rcases hother y hy with rfl | rfl
    · exact h.head_new
    · exact h.within.own _ h.exit_mem
  have hg := hr.grows_leave hc
  have hsound := hw.drawn.shows.sound
  have hexit := h.exit_cast
  rw [Sketch.backTo, if_neg hdead]
  refine ⟨_, h.move hw hg (alike_gen t _).carries (fun _ hy => hy) (fun _ hy => absurd hy id) ?_ h.exit_mem
    h.framed (fun _ => hs), Sheet.left_leave hc, fun _ => ⟨rfl, (hc.exit _).trans (if_pos rfl)⟩, hg.retains,
    fun y m gs hy hw' => hw'.other hr hc hsound hy⟩
  by_cases hmem : l.exit ∈ e.targets
  · rw [if_pos hmem]
    exact h.exit.leave h.within.drawn (hr.mono fun _ _ => trivial) hc hsound (hexit.symm ▸ hmem)
  · rw [if_neg hmem, List.append_nil]
    exact h.exit.other hr hc hsound (hexit.symm ▸ hmem)

theorem Looping.jump_back (position : Position) (h : Looping V U L l flows s A t B) (hr : AllReady t B) :
    ∃ B', Looping V U L l flows s A (t.backTo l (.jump l.head) position) B' ∧ B'.Left ∧
      JumpsTo B' (point t B) l.head.toNat ∧ B.Retains B' := by
  have hfits : (Exit.jump l.head).Fits B.chart.sig.result B.chart.size B.chart.ty := by
    rw [← h.head_cast]
    exact ⟨Int.natCast_nonneg _, Int.ofNat_lt.2 h.fits.inside⟩
  obtain ⟨B', h', hleft, hend, hret, -⟩ := h.back position hr hfits
    (fun _ r hr => absurd hr List.not_mem_nil) (List.mem_singleton_self _) fun y hy =>
      .inl (Int.ofNat_inj.1 ((List.mem_singleton.1 hy).trans h.head_cast.symm))
  have hexit : l.exit ∉ (Exit.jump l.head).targets := fun hmem =>
    h.fits.exit_ne_head (List.mem_singleton.1 hmem)
  rw [if_neg hexit, List.append_nil] at h'
  refine ⟨B', h', hleft, fun q j hq => ?_, hret⟩
  rw [point] at hq
  split at hq
  · cases hq
  · rename_i hdead
    cases hq
    rw [h.head_cast]
    exact hend (by simpa using hdead)

/-- The sketch goes on at a block of the loop where edges meet. -/
theorem Looping.merge (L' : List Label) {z : Label} {fs : List EdgeFlow} {u : Unit} (h : Looping V U L l flows s A t B)
    (hleft : B.Left) (hz : Awaits t B z n fs) (hzL : z ∈ L) (hzx : z ≠ l.exit.toNat)
    (hzh : z ≠ l.head.toNat) (hlive : fs ≠ [] → s.dead = false)
    (hL : Remain z L L') (hx : l.exit.toNat ∈ L')
    (hrun : Describe.merge z fs n none t = .ok (u, t')) :
    ∃ B', Looping V U L' l flows s A t' B' ∧ Entered z t' B' ∧ Merged z n fs t B t' B' := by
  obtain ⟨B', hw, hentered, hmerged⟩ := merge_ok h.within hleft hz hzL hlive (by rintro _ ⟨⟩) hL hrun
  refine ⟨B', h.step hw hmerged.grows hmerged.alike.carries (fun _ hy => absurd hy id) (fun y hy => ?_) id hx
    ?_, hentered, hmerged⟩
  · exact hy ▸ ⟨hzx, hzh⟩
  · obtain ⟨f, hf, hV⟩ := h.framed
    exact ⟨f, hmerged.frames.trans hf, hV⟩

/-! ## After the loop -/

/-- The blocks that were made since an earlier sheet. -/
def since (A B : Sheet) (k : Label) : Prop :=
  A.chart.size ≤ k ∧ k < B.chart.size

/-- The values that variables had before a loop which does not assign to them. -/
def untouched (V : Nat → Prop) (s : Sketch) (v : Nat) (r : Ref) : Prop :=
  ¬ V v ∧ ∃ y, s.vars[v]? = some y ∧ s.isClosed y = false ∧ y.ref = r

section Widening

variable {h : Label}
variable {W : Nat → Prop} {a : BitSet.Plain}

section

variable (hw : Within W V L s A t B)
include hw

/-- Control enters the blocks of a loop from the block before it only. -/
theorem Within.eq_current_of_edge {p k : Label} (hp : p < A.chart.size) (hk : A.chart.size ≤ k)
    (he : B.Edge p k) : p = A.chart.current := by
  by_contra hne
  obtain ⟨hblock, -⟩ := hw.grows.kept p hp hne id
  obtain ⟨e, hexit, ht⟩ := Sheet.edge_iff.1 he
  have := ((hw.start.shows.consistent.exits p e (hblock ▸ hexit)).target ht).2
  exact absurd (Int.ofNat_lt.1 this) (not_lt.2 hk)

/-- The home of a value stays where it was. -/
theorem Within.home_lt {r : Ref} (hr : A.chart.home r ≠ none) :
    ∃ q, B.chart.home r = some q ∧ q.block < A.chart.size := by
  obtain ⟨q, hq⟩ := Option.ne_none_iff_exists'.1 hr
  exact ⟨q, (hw.grows.home r hr).1.trans hq, hw.start.shows.consistent.home_block_lt hq⟩

theorem Within.sound_widen (hr : AllReady s A) (hend : EndsAt B A.chart.current A.top (.jump h)) :
    (B.widen (since A B) (untouched V s)).Sound := by
  have hcons := hw.drawn.shows.consistent
  have hsound := hw.drawn.shows.sound
  have hhome : ∀ v r, untouched V s v r → A.chart.home r ≠ none := by
    rintro v r ⟨-, y, hy, -, rfl⟩
    exact (hw.start.ty v y hy).1.1
  have hpos := hw.start.shows.consistent.pos
  refine hsound.widen (fun k hk => ⟨hk.2, fun heq => ?_⟩) (fun v r hv => ?_) (fun k v r hk hv hmem => ?_)
    (fun k j a v r hk hv hitem hout => ?_) (fun k j v r y hk hv hitem => ?_)
    fun p k v r hk hv hp he hpR => ?_
  · rw [heq] at hk
    exact absurd hk.1 (not_le.2 hpos)
  · obtain ⟨q, hq, -⟩ := hw.home_lt (hhome v r hv)
    rw [hq]
    exact nofun
  · obtain ⟨q, hq, hlt⟩ := hw.home_lt (hhome v r hv)
    cases hq.symm.trans ((hcons.phi k r).1 hmem)
    exact absurd hlt (not_lt.2 hk.1)
  · obtain ⟨q, hq, hlt⟩ := hw.home_lt (hhome v r hv)
    cases hq.symm.trans (hcons.out k _ a r (hsound.line_code hitem) hout)
    exact absurd hlt (not_lt.2 hk.1)
  · obtain ⟨hnot, z, hz, -⟩ := hv
    rcases hw.grows.notes k j v y hitem (Array.getElem?_eq_some_iff.1 hz).1 with hV | hold
    · exact hnot hV
    · rw [hw.start.shows.sound.blank k hk.1] at hold
      cases hold
  · have hlt : p < A.chart.size := by
      by_contra hge
      exact hpR ⟨not_lt.1 hge, Sheet.lt_of_edge hcons he⟩
    obtain rfl := hw.eq_current_of_edge hlt hk.1 he
    obtain ⟨-, y, hy, hopen, rfl⟩ := hv
    rw [← hend.last]
    have hlive : s.dead = false := hr.live fun hd => hp (hw.grows.ext.dead _ hd)
    exact hw.grows.ext.knows _ _ _ _ (hr.env hlive v y trivial hy hopen)

end

/-- All over a loop the variables that it does not assign to are kept in the values they had before it. -/
theorem Within.widen (hw : Within (fun _ => True) V L s A t B) (hr : AllReady s A)
    (hend : EndsAt B A.chart.current A.top (.jump h)) (hh : A.chart.size ≤ h) :
    Within V V L s A t (B.widen (since A B) (untouched V s)) := by
  have hg : B.Grows s.vars.size (fun _ => False) (fun _ => False) (since A B) (fun _ => False)
      (B.widen (since A B) (untouched V s)) := Sheet.grows_widen B _ _
  have hshows : t.gen.Shows (B.widen (since A B) (untouched V s)) := {
    models := hw.drawn.shows.models
    consistent := hw.drawn.shows.consistent
    sound := hw.sound_widen hr hend
    entry := hw.drawn.shows.entry
    reached := hw.drawn.shows.reached }
  have hwide : Within (fun _ => True) V L s A t (B.widen (since A B) (untouched V s)) :=
    hw.step hg hshows (.refl t) rfl (fun _ hy => absurd hy id) (fun y hy => hy.1)
      (fun _ hy => absurd hy id) hw.quiet (fun v y hy => (hw.drawn.ty v y hy).1)
      (fun y hy => .inr ⟨hy, fun hL => hL⟩) hw.own
  refine { hwide with feeds := ⟨hwide.feeds.outside, fun l ls hl => ?_⟩ }
  obtain ⟨b, c, hloops, hfed⟩ := hwide.feeds.inside l ls hl
  refine ⟨b, c, hloops, { hfed with kept := fun f hf p hp v y hy hopen hv => ?_ }⟩
  have hne : l.next ≠ l.head := fun heq => by
    rw [hfed.no_next heq] at hf
    cases hf
  obtain ⟨q, hq, -, hedge, -⟩ := ((hfed.next hne).each f hf).source
  obtain rfl := Int.ofNat_inj.1 (hp.symm.trans hq)
  obtain ⟨q, hq, hsince, -⟩ := (hfed.next hne).since f hf
  obtain rfl := Int.ofNat_inj.1 (hp.symm.trans hq)
  have hnext : l.next.toNat < A.chart.size := ((hw.start.loops l (by simp [hl])).next hne).pending.lt
  refine fun _ => .inr ⟨⟨?_, Sheet.lt_of_edge hw.drawn.shows.consistent hedge⟩, le_rfl, hv, y, hy, hopen, rfl⟩
  refine hsince.resolve_left ?_
  rintro rfl
  -- The block before the loop leads to its head only.
  obtain ⟨e, hexit, ht⟩ := Sheet.edge_iff.1 hedge
  cases hexit.symm.trans hend.exit
  have := Int.ofNat_inj.1 (List.mem_singleton.1 ht)
  omega

theorem kept_vars (refs : Array Ref) (hy : t.vars[v]? = some y) : (t.keepFrom a 0 refs.toList).vars[v]? =
      some { y with ref := if a.contains v then y.ref else refs[v]?.getD y.ref } := by
  rw [Sketch.keepFrom_vars, hy, Option.map_some, Nat.sub_zero, Array.getElem?_toList]
  cases hc : a.contains v <;> simp

theorem kept_size (s : Sketch) (a : BitSet.Plain) (i : Nat) (rs : List Ref) :
    (s.keepFrom a i rs).vars.size = s.vars.size := by
  induction rs generalizing s i with
  | nil => rfl
  | cons r rs ih =>
    rw [Sketch.keepFrom, ih]
    split
    · rfl
    · rw [Sketch.setRef, Array.size_modify]

/-- Control goes on after a loop where the edges to its end meet. The variables that the loop does not
assign to have the values that they had before it. -/
theorem loop_closed {u : Unit} (hw : Within (fun _ => True) V L s A t B) (hr : AllReady s A)
    (hend : EndsAt B A.chart.current A.top (.jump h)) (hh : A.chart.size ≤ h) (hleft : B.Left)
    (hx : Awaits t B x s.vars.size flows) (hxL : x ∈ L) (hL : ∀ y ∈ L, y = x)
    (hlive : flows ≠ [] → s.dead = false) (hframes : FramesGrow V s.frames t.frames)
    (ha : ∀ v : Nat, a.contains v = true ↔ V v) (hrun : merge x flows s.vars.size none t = .ok (u, t')) :
    ∃ A', Advance V s A (t'.keepFrom a 0 (s.snapshot s.vars.size).toList) A' ∧
      Ready (t'.keepFrom a 0 (s.snapshot s.vars.size).toList) A' (· < s.vars.size) ∧
      AtHead A' (point (t'.keepFrom a 0 (s.snapshot s.vars.size).toList) A') x ∧ B.Extends A' ∧
      (t'.keepFrom a 0 (s.snapshot s.vars.size).toList).vars.size = t.vars.size := by
  obtain ⟨B1, hw1, hentered, hmerged⟩ := merge_ok hw hleft hx hxL hlive (by rintro _ ⟨⟩) (remain_nil hL) hrun
  have hwide := hw1.widen hr (hend.mono hmerged.grows.ext) hh
  set A' := B1.widen (since A B1) (untouched V s)
  set t2 := t'.keepFrom a 0 (s.snapshot s.vars.size).toList with ht2
  have hrest : t2 = { t' with vars := t2.vars } := Sketch.keepFrom_eq _ _ _ _
  have hsize : t2.vars.size = t'.vars.size := kept_size _ _ _ _
  have halike : t'.Alike t2 := by
    rw [hrest]
    exact ⟨rfl, rfl, rfl, rfl, rfl, rfl, rfl, rfl, fun v y hy => ⟨_, kept_vars _ hy, rfl, rfl⟩⟩
  -- A variable is as the edges bring it if the loop assigns to it, and as before otherwise.
  have hkept : ∀ (v : Nat) y, t2.vars[v]? = some y → v < s.vars.size → ¬ V v →
      ∃ z, s.vars[v]? = some z ∧ y.ref = z.ref ∧ y.ty = z.ty ∧ (t2.isClosed y = s.isClosed z) := by
    intro v y hy hv hV
    have hz := Array.getElem?_eq_getElem hv
    obtain ⟨y', hy', hty', hclosed'⟩ := hw1.drifts.var hw1.start hz
    have hc : a.contains v = false := by simpa using fun hc => hV ((ha v).1 hc)
    cases hy.symm.trans (kept_vars _ hy')
    refine ⟨_, hz, ?_, hty', (halike.isClosed rfl).trans hclosed'⟩
    show (if a.contains v then y'.ref else (s.snapshot s.vars.size)[v]?.getD y'.ref) = _
    rw [hc, if_neg Bool.false_ne_true, Sketch.snapshot_getElem?, if_pos hv, hz]
    rfl
  have hother : ∀ (v : Nat) y, t2.vars[v]? = some y → (v < s.vars.size → V v) → t'.vars[v]? = some y := by
    intro v y hy hV
    obtain ⟨y', hy', -⟩ := halike.back hsize hy
    cases hy.symm.trans (kept_vars _ hy')
    have href : (if a.contains v then y'.ref else (s.snapshot s.vars.size)[v]?.getD y'.ref) = y'.ref := by
      by_cases hv : v < s.vars.size
      · rw [if_pos ((ha v).2 (hV hv))]
      · rw [Sketch.snapshot_getElem?, if_neg hv]
        exact ite_self _
    rw [hy', href]
  have hvars : ∀ (v : Nat) y, t2.vars[v]? = some y → A'.HasTy y.ref y.ty := by
    intro v y hy
    by_cases hv : v < s.vars.size ∧ ¬ V v
    · obtain ⟨z, hz, href, hty, -⟩ := hkept v y hy hv.1 hv.2
      rw [href, hty]
      exact hwide.grows.hasTy (hw.start.ty v z hz).1
    · exact (hwide.drawn.ty v y (hother v y hy fun hlt => by_contra fun hV => hv ⟨hlt, hV⟩)).1
  have hw2 : Within V V [] s A t2 A' := hwide.alter halike hsize (by rw [hrest])
    (by rw [hrest]; exact hw1.quiet) hvars
  have hentered' : Entered x t2 A' := by
    refine ⟨hentered.current, hentered.exit, hentered.last, ?_⟩
    rw [hrest]
    exact hentered.dead
  have hxsince : since A B1 x := ⟨hw.own x hxL, hx.pending.lt.trans_le hmerged.grows.size⟩
  refine ⟨A', ⟨hw2.drawn, hw2.grows, fun y hy => ?_, ⟨hw2.drifts, fun v y y' hV hy hy' => ?_, ?_, hw2.quiet⟩,
    hw2.feeds⟩, hentered'.ready fun hdead v y hv hy hopen => ?_, hentered'.atHead,
    hmerged.grows.ext.trans (Sheet.extends_widen _ _ _), hsize.trans hmerged.size⟩
  · exact (hw2.idle y hy).resolve_right List.not_mem_nil
  · obtain ⟨z, hz, href, -⟩ := hkept v y' hy' (Array.getElem?_eq_some_iff.1 hy).1 hV
    cases hz.symm.trans hy
    exact href
  · rw [hrest]
    exact hmerged.frames ▸ hframes
  · by_cases hV : V v
    · have hy' := hother v y hy fun _ => hV
      have hne : flows ≠ [] := fun hnil => by
        rw [hrest] at hdead
        exact absurd (hmerged.dead.2 hnil) (by simpa using hdead)
      exact (Sheet.extends_widen _ _ _).knows _ _ _ _
        (hmerged.known hne v y hv hy' ((halike.isClosed rfl).symm.trans hopen))
    · obtain ⟨z, hz, href, -, hclosed⟩ := hkept v y hy hv hV
      exact fun _ => .inr ⟨hxsince, Nat.zero_le _, hV, z, hz, hclosed.symm.trans hopen, href.symm⟩

end Widening

end Describe

end Codesmith
