import Codesmith.Proofs.Describe.Jumps

/-!
# Within constructs

A construct makes blocks of its own, describes its parts in them, and goes on at a block where they join.
`Within` says what stays while it does: all edges that the construct draws itself lead to its own blocks,
so nothing but its parts concerns the loops around it. Each step of a construct has its lemma here.
-/

namespace Codesmith.Describe

open Gen (Sheet Exit Junction)
open Direct

variable {s₀ s s' t : Sketch} {A₀ A B : Sheet} {e : Exit} {c : Gen.Chart} {b x : Label} {n : Nat}
  {fs : List EdgeFlow} {l : Loop} {V V' W : Nat → Prop} {T J U : Label → Prop} {L L' : List Label}
  {p : Nat → Prop}
variable {g : Gen.Generator}

/-- The sketch and its sheet came of those with which a construct began. The blocks in `L` are the
construct's own. Of the variables made before, only those in `V` were noted anew, and edges that go to the
next round of the loop around bring those that are not in `W` as they were. -/
structure Within (W V : Nat → Prop) (L : List Label) (s₀ : Sketch) (A₀ : Sheet) (s : Sketch)
    (A : Sheet) : Prop where
  start : Drawn s₀ A₀
  drawn : Drawn s A
  drifts : Drifts s₀ s
  quiet : s₀.dead = true → s.dead = true
  grows : A₀.Grows s₀.vars.size V (· = A₀.chart.current) (fun _ => False) s₀.Targets A
  idle : ∀ y, A.Idle y → A₀.Idle y ∨ y ∈ L
  own : ∀ y ∈ L, A₀.chart.size ≤ y
  feeds : Feeds W s₀ A₀ s A

theorem Sketch.Alike.refl (s : Sketch) : s.Alike s :=
  alike_gen s s.gen

theorem within_start (hd : Drawn s A) : Within W V [] s A s A where
  start := hd
  drawn := hd
  drifts := (evolves_gen s s.gen).toDrifts
  quiet h := h
  grows := .refl A
  idle _ h := .inl h
  own _ h := absurd h List.not_mem_nil
  feeds := feeds_none hd (Sheet.grows_self A) rfl fun _ _ _ _ => id

namespace Within

section

variable (h : Within W V L s₀ A₀ s A)
include h

/-- The loops around are those of the beginning. -/
theorem loop (hl : l ∈ s.loops) : ∃ l0 ∈ s₀.loops, l.blocks = l0.blocks ∧ l.head = l0.head := by
  cases hs : s₀.loops with
  | nil =>
    rw [h.feeds.outside hs] at hl
    cases hl
  | cons l0 ls =>
    obtain ⟨b, c, hloops, -⟩ := h.feeds.inside l0 ls hs
    rw [hloops] at hl
    rcases List.mem_cons.1 hl with rfl | hl
    · exact ⟨l0, List.mem_cons_self, rfl, rfl⟩
    · exact ⟨l, List.mem_cons_of_mem _ hl, rfl, rfl⟩

theorem notMem_blocks (hl : l ∈ s.loops) (hx : A₀.chart.size ≤ x) : (x : Int) ∉ l.blocks := by
  obtain ⟨l0, hl0, hblocks, -⟩ := h.loop hl
  intro hmem
  have := (h.start.loops l0 hl0).lt _ (hblocks ▸ hmem)
  exact absurd (Int.ofNat_lt.1 this) (not_lt.2 hx)

theorem not_target (hx : A₀.chart.size ≤ x) : ¬ s.Targets x := by
  rintro ⟨l, hl, heq⟩
  refine h.notMem_blocks (List.mem_of_head? hl) hx ?_
  rcases heq with heq | heq
  · exact heq ▸ List.mem_cons_self
  · exact heq ▸ List.mem_cons_of_mem _ List.mem_cons_self

/-- The head of a loop around is given up only if the construct began where control does not get. -/
theorem head_dead (hl : l ∈ s.loops) (hdead : A.dead l.head.toNat) : s₀.dead = true := by
  obtain ⟨l0, hl0, -, hhead⟩ := h.loop hl
  have hfits := h.start.loops l0 hl0
  rw [hhead] at hdead
  exact hfits.alive (h.grows.alive _ hfits.inside id hdead)

theorem size_le : s₀.vars.size ≤ s.vars.size :=
  (h.drifts.carries h.start).size_le

end

end Within

/-! ## Steps -/

theorem Sketch.Alike.back (hs : s.Alike s') (hsize : s'.vars.size = s.vars.size) {v : Nat} {y' : Var}
    (hy' : s'.vars[v]? = some y') :
    ∃ y, s.vars[v]? = some y ∧ y'.ty = y.ty ∧ y'.scope = y.scope := by
  have hlt : v < s.vars.size := hsize ▸ (Array.getElem?_eq_some_iff.1 hy').1
  obtain ⟨y'', hy'', hty, hscope⟩ := hs.vars v _ (Array.getElem?_eq_getElem hlt)
  cases hy''.symm.trans hy'
  exact ⟨_, Array.getElem?_eq_getElem hlt, hty, hscope⟩

/-- A step that the construct takes itself. -/
theorem Within.step (h : Within W V L s₀ A₀ s A)
    (hg : A.Grows s₀.vars.size (fun _ => False) T J U B) (hshows : s'.gen.Shows B) (hs : s.Alike s')
    (hsize : s'.vars.size = s.vars.size) (hT : ∀ y, T y → y = A.chart.current)
    (hJ : ∀ y, J y → A₀.chart.size ≤ y) (hU : ∀ y, U y → A₀.chart.size ≤ y)
    (hdead : s₀.dead = true → s'.dead = true)
    (hvars : ∀ (v : Nat) y, s'.vars[v]? = some y → B.HasTy y.ref y.ty)
    (hidle : ∀ y, B.Idle y → y ∈ L' ∨ A.Idle y ∧ (y ∈ L → y ∈ L'))
    (hown : ∀ y ∈ L', A₀.chart.size ≤ y) : Within W V L' s₀ A₀ s' B where
  start := h.start
  drawn := by
    refine h.drawn.mono hg hshows hs hT (fun l hl y hy hj => h.notMem_blocks hl (hJ y hj) hy)
      (fun l hl hd => hdead (h.head_dead hl hd)) fun v y' hy' => ?_
    obtain ⟨y, hy, hty, hscope⟩ := hs.back hsize hy'
    exact ⟨hvars v y' hy', hty ▸ (h.drawn.ty v y hy).2, hscope ▸ h.drawn.scope v y hy⟩
  drifts := by
    refine h.drifts.trans (hs.drifts fun v y' hv hy' => ?_) h.drawn
    exact absurd (Array.getElem?_eq_some_iff.1 hy').1 (not_lt.2 (hsize ▸ hv))
  quiet := hdead
  grows := by
    refine h.grows.trans hg le_rfl (fun _ _ hv => absurd hv id) (fun y hy hTy => ?_)
      (fun y hy hj => absurd (hJ y hj) (not_le.2 hy)) fun y hy hu => absurd (hU y hu) (not_le.2 hy)
    rw [hT y hTy] at hy ⊢
    exact h.grows.current hy
  idle y hy := by
    rcases hidle y hy with hmem | ⟨hA, hmem⟩
    · exact .inr hmem
    · exact (h.idle y hA).imp_right hmem
  own := hown
  feeds := h.feeds.mono h.grows hg h.drawn hs.carries hs.loops fun l hl y hy hu =>
    h.notMem_blocks hl (hU y hu) hy

/-- Values of variables may change, as well as what has nothing to do with the sheet. -/
theorem Within.alter (h : Within W V L s₀ A₀ s A) (hs : s.Alike s')
    (hsize : s'.vars.size = s.vars.size) (hgen : s'.gen = s.gen)
    (hdead : s₀.dead = true → s'.dead = true)
    (hvars : ∀ (v : Nat) y, s'.vars[v]? = some y → A.HasTy y.ref y.ty) :
    Within W V L s₀ A₀ s' A :=
  h.step (T := fun _ => False) (J := fun _ => False) (U := fun _ => False) (.refl A)
    (hgen ▸ h.drawn.shows) hs hsize (fun _ h => absurd h id) (fun _ h => absurd h id)
    (fun _ h => absurd h id) hdead hvars (fun _ hy => .inr ⟨hy, fun h => h⟩) h.own

theorem Awaits.alter (h : Awaits s A x n fs) (hA : A.Sound) (hs : s.Carries s') : Awaits s' A x n fs :=
  h.mono (Sheet.grows_self A) hA hs id id id

/-! ### Blocks -/

theorem Within.newBlock {name : String} {i : BlockId} (h : Within W V L s₀ A₀ s A)
    (hnew : Describe.newBlock name s = .ok (i, s')) :
    i = A.chart.size ∧ (∃ g, s' = { s with gen := g }) ∧
      Within W V (A.chart.size :: L) s₀ A₀ s' A.newBlock := by
  obtain ⟨rfl, g, rfl, hshows⟩ := newBlock_ok hnew h.drawn.shows
  refine ⟨rfl, ⟨g, rfl⟩, h.step (T := fun _ => False) (J := fun _ => False) (U := fun _ => False)
    (Sheet.grows_newBlock A) hshows (alike_gen s g) rfl (fun _ h => absurd h id) (fun _ h => absurd h id)
    (fun _ h => absurd h id) h.quiet (fun v y hy => (h.drawn.ty v y hy).1) (fun y hy => ?_) ?_⟩
  · rcases Sheet.idle_newBlock hy with hy | rfl
    · exact .inr ⟨hy, List.mem_cons_of_mem _⟩
    · exact .inl List.mem_cons_self
  · intro y hy
    rcases List.mem_cons.1 hy with rfl | hy
    · exact h.grows.size
    · exact h.own y hy

theorem awaits_new (hd : Drawn s A) (hn : n ≤ s.vars.size) :
    Awaits { s with gen := g } A.newBlock A.chart.size n [] where
  pending := Sheet.pending_newBlock hd.shows.sound hd.shows.consistent
  ne := (Nat.ne_of_lt hd.shows.consistent.current).symm
  size := hn
  nodup := List.nodup_nil
  all p _ hp := by
    obtain ⟨e, he, ht⟩ := Sheet.edge_iff.1 hp
    exact absurd (Int.ofNat_lt.1 ((hd.shows.consistent.exits p e he).target ht).2) (lt_irrefl _)
  each _ hf := absurd hf List.not_mem_nil

theorem Awaits.newBlock (h : Awaits s A x n fs) (hA : A.Sound) :
    Awaits { s with gen := g } A.newBlock x n fs :=
  h.mono (Sheet.grows_newBlock (n := 0) (V := fun _ => False) (T := fun _ => False) (J := fun _ => False)
    (U := fun _ => False) A) hA.newBlock (alike_gen s g).carries id id id

/-! ### Exits -/

/-- The edge from the current block, if control gets there. -/
def Sketch.leaving (s : Sketch) (n : Nat) : List EdgeFlow :=
  if s.dead then [] else [s.flow n]

section

variable (h : Within W V L s₀ A₀ s A)
include h

theorem Within.leave (hr : Ready s A p) (hc : A.chart.Exits e c) (hshows : g.Shows (A.leave c))
    (ht : ∀ y : Label, (y : Int) ∈ e.targets → A₀.chart.size ≤ y) :
    Within W V L s₀ A₀ { s with gen := g } (A.leave c) := by
  have hg : A.Grows s₀.vars.size (fun _ => False) (· = A.chart.current) (fun _ => False) _ (A.leave c) :=
    Sheet.grows_leave hc hr.exit
  exact h.step hg hshows (alike_gen s g) rfl (fun _ h => h) (fun _ h => absurd h id)
    (fun y hy => ht y hy.2) h.quiet (fun v y hy => hg.hasTy (h.drawn.ty v y hy).1)
    (fun y hy => .inr ⟨Sheet.idle_leave hc hy, fun h => h⟩) h.own

theorem Within.terminate {position : Position} (hr : Ready s A p)
    (hfits : e.Fits A.chart.sig.result A.chart.size A.chart.ty)
    (hheld : s.dead = false → ∀ r ∈ e.reads, A.Held A.chart.current A.top r)
    (ht : ∀ y : Label, (y : Int) ∈ e.targets → A.Pending y ∧ A₀.chart.size ≤ y) :
    Within W V L s₀ A₀ { s with gen := (s.gen.setPosition (some position)).terminate e }
      (A.leave (A.chart.terminate e)) :=
  h.leave hr (A.chart.exits_terminate e) ((h.drawn.shows.setPosition (some position)).terminate hr.exit
    hfits (fun hlive => hheld (hr.live hlive)) fun y hy => (ht y hy).1) fun y hy => (ht y hy).2

theorem Within.jump (position : Position) (hr : Ready s A p) (hb : A.Pending b) (hnew : A₀.chart.size ≤ b) :
    Within W V L s₀ A₀ { s with gen := (s.gen.setPosition (some position)).terminate (.jump b) }
      (A.leave (A.chart.terminate (.jump b))) := by
  refine h.terminate hr ⟨Int.natCast_nonneg b, Int.ofNat_lt.2 hb.lt⟩ nofun fun y hy => ?_
  rw [Int.ofNat_inj.1 (List.mem_singleton.1 hy)]
  exact ⟨hb, hnew⟩

end

theorem endsAt_leave (A : Sheet) (e : Exit) :
    EndsAt (A.leave (A.chart.terminate e)) A.chart.current A.top e :=
  ⟨rfl, ((A.chart.exits_terminate e).exit _).trans (if_pos rfl)⟩

/-- One more edge leads to a block that waits, if control gets there. -/
theorem Awaits.leave (h : Awaits s A x n fs) (hd : Drawn s A) (hr : Ready s A (· < n))
    (hc : A.chart.Exits e c) (hsound : (A.leave c).Sound) (ht : (x : Int) ∈ e.targets) :
    Awaits { s with gen := g } (A.leave c) x n (fs ++ s.leaving n) := by
  have hg := hr.grows_leave hc
  rw [Sketch.leaving]
  cases hdead : s.dead with
  | true =>
    have hnil : Arrives s A (A.leave c) x n [] := arrives_nil hg h.pending.lt fun hy => hy.1 (hr.dead.2 hdead)
    exact (h.arrive hnil hg hsound (.refl s) h.ne id).alter hsound (alike_gen s g).carries
  | false =>
    exact (h.arrive (arrives_leave hd hr hdead h.size hc ht) hg hsound (.refl s) h.ne id).alter hsound
      (alike_gen s g).carries

theorem Awaits.other (h : Awaits s A x n fs) (hr : Ready s A p) (hc : A.chart.Exits e c)
    (hsound : (A.leave c).Sound) (hx : (x : Int) ∉ e.targets) :
    Awaits { s with gen := g } (A.leave c) x n fs :=
  h.mono (hr.grows_leave hc) hsound (alike_gen s g).carries h.ne id fun hy => hx hy.2

/-! ### Going on at a block -/

/-- The blocks in `L'` are those of `L` that wait after `b` has been entered. -/
structure Remain (b : Label) (L L' : List Label) : Prop where
  split : ∀ y ∈ L, y = b ∨ y ∈ L'
  sub : ∀ y ∈ L', y ∈ L

theorem remain_nil (h : ∀ y ∈ L, y = b) : Remain b L [] :=
  ⟨fun y hy => .inl (h y hy), nofun⟩

/-- The sheet grows by what happens at the block that is entered. -/
abbrev GrowsAt (b : Label) (A A' : Sheet) : Prop :=
  A.Grows 0 (fun _ => False) (fun _ => False) (· = b) (fun _ => False) A'

/-- The sketch goes on at the head of a block. -/
structure Entered (b : Label) (s : Sketch) (A : Sheet) : Prop where
  current : A.chart.current = b
  exit : (A.chart.block b).exit = none
  last : A.last b = 0
  dead : A.dead b ↔ s.dead = true

section

variable (h : Entered b s A)
include h

theorem Entered.ready (henv : s.dead = false → ∀ (v : Nat) y, p v →
    s.vars[v]? = some y → s.isClosed y = false → A.Knows b 0 v y.ref) : Ready s A p where
  exit := h.current ▸ h.exit
  dead := h.current ▸ h.dead
  env hlive v y hv hy hopen := by
    rw [Sheet.top, h.current, h.last]
    exact henv hlive v y hv hy hopen

theorem Entered.point_eq : point s A = if s.dead then none else some (b, 0) := by
  rw [point, Sheet.top, h.current, h.last]

theorem Entered.atHead : AtHead A (point s A) b := by
  rw [h.point_eq]
  cases hdead : s.dead with
  | true => exact .inr ⟨rfl, h.dead.2 hdead⟩
  | false => exact .inl rfl

end

/-- A block of the construct is given up. -/
theorem Within.bury (h : Within W V L s₀ A₀ s A) (s' : Sketch) (hleft : A.Left)
    (hw : Awaits s A b n []) (hb : b ∈ L) (hset : s.gen.setBlock b = .ok s'.gen) (hs : s.Alike s')
    (hsize : s'.vars.size = s.vars.size) (hdead : s'.dead = true)
    (hvars : ∀ (v : Nat) y, s'.vars[v]? = some y → A.HasTy y.ref y.ty)
    (hL : Remain b L L') :
    Within W V L' s₀ A₀ s' (A.bury b) ∧ Entered b s' (A.bury b) ∧
      ∀ x n fs, x ≠ b → Awaits s A x n fs → Awaits s' (A.bury b) x n fs := by
  have hedge : ∀ p, A.Edge p b → A.dead p := fun p hp => by
    by_contra hlive
    exact absurd (hw.all p hlive hp) List.not_mem_nil
  obtain ⟨g, hg, hshows⟩ := h.drawn.shows.bury hw.pending hedge
  cases hset.symm.trans hg
  have hgrows : ∀ {m : Nat}, A.Grows m (fun _ => False) (fun _ => False) (· = b) (fun _ => False)
      (A.bury b) := Sheet.grows_bury hw.pending.exit
  refine ⟨h.step hgrows hshows hs hsize (fun _ h => absurd h id) (fun y hy => hy ▸ h.own b hb)
    (fun _ h => absurd h id) (fun _ => hdead) hvars (fun y hy => ?_) fun y hy => h.own y (hL.sub y hy),
    ⟨rfl, hw.pending.exit, ?_, iff_of_true (.inr rfl) hdead⟩, fun x n fs hx hw' => ?_⟩
  · obtain ⟨hne, hidle⟩ := Sheet.idle_bury hleft hy
    exact .inr ⟨hidle, fun hmem => (hL.split y hmem).resolve_left hne⟩
  · exact congrArg List.length hw.pending.items
  · exact hw'.mono (hgrows (m := 0)) hshows.sound hs.carries id hx id

/-- A block of the construct is entered, after the values at its head have been made. -/
theorem Within.enter {K : Nat → Ref → Prop} {ws : List Junction} (h : Within W V L s₀ A₀ s A)
    (s' : Sketch) (hleft : A.Left) (hw : A.Waiting b) (hb : b ∈ L) (hlive : s₀.dead = false)
    (hedge : ∃ p, ¬ A.dead p ∧ A.Edge p b) (hm : s'.gen.Models c) (hc : A.chart.Opening b ws c)
    (hws : ∀ w ∈ ws, A.Joined b w) (hK : ∀ v r, K v r → A.Met b ws v r) (hphi : ∀ w ∈ ws, K w.var w.value) (hs : s.Alike s')
    (hsize : s'.vars.size = s.vars.size) (hdead : s'.dead = false)
    (hvars : ∀ (v : Nat) y, s'.vars[v]? = some y → (A.enter b K c).HasTy y.ref y.ty)
    (hL : Remain b L L') :
    Within W V L' s₀ A₀ s' (A.enter b K c) ∧ Entered b s' (A.enter b K c) ∧
      ∀ x n fs, x ≠ b → Awaits s A x n fs → Awaits s' (A.enter b K c) x n fs := by
  have hshows := h.drawn.shows.meet hw.pending hedge hm hc hws hK hphi
  have hgrows : ∀ {m : Nat}, A.Grows m (fun _ => False) (fun _ => False) (· = b) (fun _ => False)
      (A.enter b K c) := Sheet.grows_enter hc.opens
  refine ⟨h.step hgrows hshows hs hsize (fun _ h => absurd h id) (fun y hy => hy ▸ h.own b hb)
    (fun _ h => absurd h id) (fun hd => ?_) hvars (fun y hy => ?_) fun y hy => h.own y (hL.sub y hy),
    ⟨hc.opens.current, hc.opens.exit.trans hw.pending.exit, ?_, ?_⟩, fun x n fs hx hw' => ?_⟩
  · rw [hlive] at hd
    cases hd
  · obtain ⟨hne, hidle⟩ := Sheet.idle_enter hc.opens hleft hy
    exact .inr ⟨hidle, fun hmem => (hL.split y hmem).resolve_left hne⟩
  · exact congrArg List.length hw.pending.items
  · exact iff_of_false hw.pending.alive (by simp [hdead])
  · exact hw'.mono (hgrows (m := 0)) hshows.sound hs.carries id hx id

/-- Control comes to a block on each of the edges that are listed. -/
theorem Awaits.exists_edge (h : Awaits s A b n fs) (hne : fs ≠ []) : ∃ p, ¬ A.dead p ∧ A.Edge p b := by
  obtain ⟨f, hf⟩ := List.exists_mem_of_ne_nil fs hne
  obtain ⟨p, -, hp, hedge, -⟩ := (h.each f hf).source
  exact ⟨p, hp, hedge⟩

/-- A block of the construct is entered where the variables are as they come on all edges. Without an
edge the block is given up. -/
theorem Within.into (dead : Bool) (h : Within W V L s₀ A₀ s A) (hleft : A.Left) (hw : Awaits s A b n fs)
    (hb : b ∈ L) (hset : s.gen.setBlock b = .ok g) (hdead : dead = true ↔ fs = [])
    (hlive : dead = false → s₀.dead = false)
    (hcommon : dead = false → ∀ (v : Nat) y, s.vars[v]? = some y → s.isClosed y = false → A.Common b v y.ref)
    (hL : Remain b L L') :
    ∃ A', Within W V L' s₀ A₀ { s with gen := g, dead } A' ∧ Entered b { s with gen := g, dead } A' ∧
      AllReady { s with gen := g, dead } A' ∧
        GrowsAt b A A' := by
  have halike : s.Alike { s with gen := g, dead } := { alike_gen s g with }
  cases dead with
  | true =>
    obtain rfl := hdead.1 rfl
    obtain ⟨hwithin, hentered, -⟩ := h.bury { s with gen := g, dead := true } hleft hw hb hset
      halike rfl rfl (fun v y hy => (h.drawn.ty v y hy).1) hL
    exact ⟨_, hwithin, hentered, hentered.ready fun hlive => (nomatch hlive),
      Sheet.grows_bury hw.pending.exit⟩
  | false =>
    have hm : g.Models (A.chart.setBlock b) := by
      obtain ⟨g', hg', hm⟩ := h.drawn.shows.setBlock hw.pending
      cases hset.symm.trans hg'
      exact hm
    have hc := Gen.Chart.opening_setBlock h.drawn.shows.consistent hw.pending.lt hw.pending.phis
    have hg : GrowsAt b A (A.enter b (A.Met b []) (A.chart.setBlock b)) := Sheet.grows_enter hc.opens
    obtain ⟨hwithin, hentered, -⟩ := h.enter { s with gen := g, dead := false } hleft
      hw.toWaiting hb (hlive rfl) (hw.exists_edge fun hnil => nomatch hdead.2 hnil) hm hc nofun (fun _ _ hk => hk)
      nofun halike rfl rfl
      (fun v y hy => hg.hasTy (h.drawn.ty v y hy).1) hL
    exact ⟨_, hwithin, hentered, hentered.ready fun _ v y _ hy hopen _ =>
      .inr ⟨rfl, rfl, .inr (hcommon rfl v y hy hopen)⟩, hg⟩

/-- The sketch that has left its block for another, if control gets there. -/
def Sketch.goTo (s : Sketch) (b : BlockId) (position : Position) : Sketch :=
  if s.dead then s else { s with gen := (s.gen.setPosition (some position)).terminate (.jump b) }

theorem Within.goTo (position : Position) (h : Within W V L s₀ A₀ s A) (hr : Ready s A (· < n))
    (hw : Awaits s A b n fs) (hb : A₀.chart.size ≤ b) :
    ∃ A', Within W V L s₀ A₀ (s.goTo b position) A' ∧ A'.Left ∧
      Awaits (s.goTo b position) A' b n (fs ++ s.leaving n) ∧ JumpsTo A' (point s A) b ∧
        (∀ x m gs, x ≠ b → Awaits s A x m gs → Awaits (s.goTo b position) A' x m gs) ∧
          A.Grows 0 (fun _ => False) (· = A.chart.current) (fun _ => False) (· = b) A' := by
  rw [Sketch.goTo, Sketch.leaving, point]
  by_cases hdead : s.dead = true
  · rw [if_pos hdead, if_pos hdead, if_pos hdead, List.append_nil]
    exact ⟨A, h, fun hlive => absurd (hr.dead.2 hdead) hlive, hw, fun _ _ hq => (by cases hq), fun _ _ _ _ hx => hx,
      .refl A⟩
  rw [if_neg hdead, if_neg hdead, if_neg hdead]
  have hjump := h.jump position hr hw.pending hb
  have hc := A.chart.exits_terminate (.jump b)
  have hw' := hw.leave (g := (s.gen.setPosition (some position)).terminate (.jump b)) h.drawn hr hc
    hjump.drawn.shows.sound (List.mem_singleton_self _)
  rw [Sketch.leaving, if_neg hdead] at hw'
  refine ⟨_, hjump, Sheet.left_leave hc, hw', fun l j hq => ?_, fun x m gs hx hwx => ?_, ?_⟩
  · cases hq
    exact endsAt_leave A (.jump b)
  · exact hwx.other hr hc hjump.drawn.shows.sound fun hmem =>
      hx (Int.ofNat_inj.1 (List.mem_singleton.1 hmem))
  · exact (hr.grows_leave hc).mono (fun _ _ hv => hv) (fun _ _ ht => .inl ht) (fun _ _ hj => hj)
      fun y _ hy => Int.ofNat_inj.1 (List.mem_singleton.1 hy.2)

/-! ### Parts -/

section

variable (h : Within W V L s₀ A₀ s A) (hp : Progress V' s A s' B)
include h hp

/-- A part of the construct is described. -/
theorem Within.part (hV : ∀ v < s₀.vars.size, V' v → V v)
    (hW : ∀ (v : Nat) y, s₀.vars[v]? = some y → s₀.isClosed y = false → ¬ W v →
      ¬ V' v ∧ ∃ y', s.vars[v]? = some y' ∧ y'.ref = y.ref) : Within W V L s₀ A₀ s' B where
  start := h.start
  drawn := hp.drawn
  drifts := h.drifts.trans hp.evolves.toDrifts h.drawn
  quiet hd := hp.evolves.quiet (h.quiet hd)
  grows := by
    refine h.grows.trans hp.grows h.size_le hV (fun y hy heq => ?_) (fun _ _ h => h)
      fun y _ hy => (h.feeds.targets y).1 hy
    exact (h.grows.current (heq ▸ hy)).imp heq.trans id
  idle y hy := h.idle y (hp.idle y hy)
  own := h.own
  feeds := by
    refine h.feeds.trans hp.feeds h.grows hp.grows h.drawn (hp.evolves.carries h.drawn) h.quiet
      fun v y hy hopen hv => ?_
    obtain ⟨hv', y', hy', href⟩ := hW v y hy hopen hv
    obtain ⟨y'', hy'', -, hclosed⟩ := h.drifts.var h.start hy
    cases hy'.symm.trans hy''
    exact ⟨hv, hv', y', hy', hclosed.trans hopen, href⟩

theorem Within.awaits_part (hx : A₀.chart.size ≤ x) (hw : Awaits s A x n fs) : Awaits s' B x n fs :=
  hw.mono hp.grows hp.drawn.shows.sound (hp.evolves.carries h.drawn) hw.ne id (h.not_target hx)

end

end Codesmith.Describe
