import Codesmith.Proofs.Describe.Computed

/-!
# Statements that leave

Control leaves the innermost loop, goes to its next round or returns. The edge that is drawn brings the
variables as they are, and what comes next is described in a block that is given up.
-/

namespace Codesmith.Describe

open Gen (Sheet Exit)
open Direct

variable {s s' t : Sketch} {A A' B C : Sheet} {position : Position} {e : Exit} {c : Gen.Chart}
  {x : Label} {m n : Nat} {fs : List EdgeFlow} {l : Loop} {ls : List Loop} {V : Nat → Prop}
  {T J U : Label → Prop}
variable {name : String} {b : BlockId} {u : Unit} {p : Nat → Prop} {g : Gen.Generator} {node : Node}
  {bs cs : List EdgeFlow}

/-! ## Blocks -/

theorem newBlock_ok (h : newBlock name s = .ok (b, s')) (hg : s.gen.Shows A) :
    b = A.chart.size ∧ ∃ g, s' = { s with gen := g } ∧ g.Shows A.newBlock := by
  replace h := get_ok h
  obtain ⟨⟨b', g⟩, t, hlift, hset⟩ := bind_ok h
  obtain ⟨hnew, ht⟩ := lift_ok hlift
  subst t
  cases hset
  obtain ⟨g', hg', hshows⟩ := hg.newBlock name
  cases hnew.symm.trans hg'
  exact ⟨rfl, g, rfl, hshows⟩

theorem setBlock_ok (h : setBlock b s = .ok (u, s')) :
    ∃ g, s.gen.setBlock b = .ok g ∧ s' = { s with gen := g } := by
  replace h := get_ok h
  obtain ⟨g, t, hlift, hset⟩ := bind_ok h
  obtain ⟨hg, ht⟩ := lift_ok hlift
  subst t
  cases hset
  exact ⟨g, hg, rfl⟩

theorem grows_abandon (hg : s.gen.Shows A) : A.Grows m V T J U (A.newBlock.bury A.chart.size) := by
  have hpending := Sheet.pending_newBlock hg.sound hg.consistent
  exact (Sheet.grows_newBlock A).trans (Sheet.grows_bury (T := T) (U := U) hpending.exit) le_rfl
    (fun _ _ h => h) (fun _ _ h => .inl h) (fun l hl heq => absurd heq hl.ne) fun _ _ h => h

theorem idle_abandon (hleft : A.Left) {y : Label} (h : (A.newBlock.bury A.chart.size).Idle y) : A.Idle y := by
  obtain ⟨hne, hidle⟩ := Sheet.idle_bury (A := A.newBlock) hleft h
  exact (Sheet.idle_newBlock hidle).resolve_right hne

/-- Going on in a block that cannot be reached gives the block up. -/
theorem deadBlock_ok (h : deadBlock name s = .ok (u, s')) (hd : Drawn s A) :
    (∃ g, s' = { s with gen := g, dead := true }) ∧ Drawn s' (A.newBlock.bury A.chart.size) ∧
      AllReady s' (A.newBlock.bury A.chart.size) := by
  obtain ⟨b, t, hnew, h⟩ := bind_ok h
  obtain ⟨rfl, g, rfl, hshows⟩ := newBlock_ok hnew hd.shows
  obtain ⟨_, t, hset, h⟩ := bind_ok h
  have hpending := Sheet.pending_newBlock hd.shows.sound hd.shows.consistent
  have hedge : ∀ p, A.newBlock.Edge p A.chart.size → A.newBlock.dead p := fun p hp => by
    obtain ⟨e, he, ht⟩ := Sheet.edge_iff.1 hp
    have := (hd.shows.consistent.exits p e he).target ht
    exact absurd this.2 (lt_irrefl _)
  obtain ⟨g', hg', hshows'⟩ := hshows.bury hpending hedge
  obtain ⟨g1, hg1, rfl⟩ := setBlock_ok hset
  cases hg1.symm.trans hg'
  cases h
  have hgrows : A.Grows 0 (fun _ => False) (fun _ => False) (fun _ => False) (fun _ => False)
      (A.newBlock.bury A.chart.size) := grows_abandon hd.shows
  refine ⟨⟨g', rfl⟩, ?_, hpending.exit, iff_of_true (.inr rfl) rfl, fun hlive => nomatch hlive⟩
  exact hd.mono hgrows hshows' { alike_gen s g' with } (fun _ h => absurd h id) (fun _ _ _ _ => id)
    (fun _ _ _ => rfl) fun v y hy => ⟨hgrows.hasTy (hd.ty v y hy).1, (hd.ty v y hy).2, hd.scope v y hy⟩

/-! ## Edges -/

section

variable (hd : Drawn s A) (hr : Ready s A (· < n)) (hlive : s.dead = false) (hn : n ≤ s.vars.size)
  (hc : A.chart.Exits e c) (ht : (x : Int) ∈ e.targets)
include hd hr hlive hn hc ht

/-- The edge from the current block brings the variables as they are. -/
theorem brings_flow : Brings s (A.leave c) x n (s.flow n) := by
  have hrefs : ∀ (v : Nat) y r, s.vars[v]? = some y → (s.flow n).refs[v]? = some r →
      v < n ∧ r = y.ref := by
    intro v y r hy href
    rw [show (s.flow n).refs = s.snapshot n from rfl, Sketch.snapshot_getElem?, hy] at href
    split at href
    · exact ⟨‹_›, (Option.some.inj href).symm⟩
    · cases href
  refine ⟨⟨A.chart.current, hd.shows.current, ?_, ?_, fun v y r hy hopen href => ?_⟩,
    Sketch.snapshot_size hn, fun v y r hy href => ?_⟩
  · intro hdead
    rw [hr.dead.1 hdead] at hlive
    cases hlive
  · rw [Sheet.Edge, show (A.leave c).chart = c from rfl, hc.edge, if_pos rfl]
    exact ht
  · obtain ⟨hv, rfl⟩ := hrefs v y r hy href
    exact hr.env hlive v y hv hy hopen
  · obtain ⟨-, rfl⟩ := hrefs v y r hy href
    have := (hd.ty v y hy).1
    exact ⟨(congrFun hc.home _).trans_ne this.1, (congrFun hc.ty _).trans this.2⟩

/-- The current block is left for a block. -/
theorem arrives_leave : Arrives s A (A.leave c) x n [s.flow n] where
  nodup := List.nodup_singleton _
  since f hf := by
    rw [List.mem_singleton.1 hf]
    exact ⟨A.chart.current, hd.shows.current, .inl rfl, Sheet.edge_of_exit_eq_none hr.exit x⟩
  all p _ hp := by
    rw [Sheet.Edge, show (A.leave c).chart = c from rfl, hc.edge] at hp
    split at hp
    · rename_i heq
      subst heq
      exact .inr (List.mem_singleton.2 hd.shows.current.symm)
    · exact .inl hp
  each f hf := List.mem_singleton.1 hf ▸ brings_flow hd hr hlive hn hc ht

end

theorem Ready.grows_leave (hr : Ready s A p) (hc : A.chart.Exits e c) :
    A.Grows 0 (fun _ => False) (· = A.chart.current) (fun _ => False)
      (fun y => ¬ A.dead A.chart.current ∧ (y : Int) ∈ e.targets) (A.leave c) :=
  Sheet.grows_leave hc hr.exit

theorem Drawn.leave (hd : Drawn s A) (hr : Ready s A p) (hc : A.chart.Exits e c)
    (hshows : g.Shows (A.leave c)) : Drawn { s with gen := g } (A.leave c) := by
  have hg := hr.grows_leave hc
  exact hd.mono hg hshows (alike_gen s g) (fun _ => id) (fun _ _ _ _ => id)
    (fun l hl => (hd.loops l hl).alive)
    fun v y hy => ⟨hg.hasTy (hd.ty v y hy).1, (hd.ty v y hy).2, hd.scope v y hy⟩

/-! ### Edges back -/

theorem backEdge_run (l : Loop) (f : EdgeFlow) (s : Sketch) : backEdge l f s =
    .ok ((), { s with gen := s.gen.addPairs f.source (l.phis.zip f.refs.toList) }) := by
  rw [backEdge]
  generalize l.phis.zip f.refs.toList = ps
  induction ps generalizing s with
  | nil => rfl
  | cons p ps ih =>
    rw [List.forM, Gen.Generator.addPairs, List.foldl_cons, ← Gen.Generator.addPairs]
    by_cases hp : p.1 = noRef
    · rw [if_pos hp, if_pos hp]
      exact ih s
    · rw [if_neg hp, if_neg hp]
      exact ih { s with gen := s.gen.addIncoming p.1 f.source p.2 }

/-- Every variable that the head of a loop keeps comes back in its value. -/
theorem Loop.Fits.returns (h : l.Fits s A) (hd : Drawn s A) (hr : Ready s A (· < l.size))
    (hlive : s.dead = false) {v : Nat} {r : Ref} (hv : l.phis[v]? = some r) (hne : r ≠ noRef) :
    ∃ q, (s.flow l.size).refs.toList[v]? = some q ∧ A.Knows A.chart.current A.top v q ∧
      A.chart.ty q = A.chart.ty r ∧ A.chart.home q ≠ none := by
  obtain ⟨y, hy, hopen, hty⟩ := h.phis v r hv hne
  have hlt : v < l.size := (List.getElem?_eq_some_iff.1 hv).1.trans_le h.length
  obtain ⟨⟨hhome, hty'⟩, -⟩ := hd.ty v y hy
  refine ⟨y.ref, ?_, hr.env hlive v y hlt hy hopen, hty'.trans hty.2.symm, hhome⟩
  rw [Array.getElem?_toList, show (s.flow l.size).refs = s.snapshot l.size from rfl,
    Sketch.snapshot_getElem?, if_pos hlt, hy]
  rfl

/-- The values that come back to the head of a loop. -/
def Loop.returned (l : Loop) (s : Sketch) : List (Ref × Ref) :=
  l.phis.zip (s.flow l.size).refs.toList

/-- The current block is left for the head of a loop, or for blocks that nothing is known of. -/
theorem Loop.Fits.shows_back (h : l.Fits s A) (position : Position) (hd : Drawn s A)
    (hr : Ready s A (· < l.size)) (hlive : s.dead = false) (hfits : e.Fits A.chart.sig.result A.chart.size A.chart.ty)
    (hheld : ∀ r ∈ e.reads, A.Held A.chart.current A.top r) (hhead : l.head ∈ e.targets)
    (hother : ∀ y : Label, (y : Int) ∈ e.targets → (y : Int) ≠ l.head → A.Pending y) :
    (((s.gen.setPosition (some position)).terminate e).addPairs s.gen.current (l.returned s)).Shows
      (A.leave ((A.chart.terminate e).joinPairs A.chart.current (l.returned s))) := by
  have hdead : ¬ A.dead l.head.toNat := fun hdead => by
    rw [h.alive hdead] at hlive
    cases hlive
  rw [hd.shows.current]
  refine (hd.shows.setPosition (some position)).back hr.exit hfits (h.heads hdead) hdead h.inner hheld
    (h.head_cast.symm ▸ hhead) (fun y hy hne => hother y hy fun heq => hne ?_)
    fun v r hv hne => h.returns hd hr hlive hv hne
  rw [← heq, Int.toNat_natCast]

/-! ## Giving up the rest -/

/-- After control has left, the rest is described in a block that is given up. -/
theorem progress_abandon (g : Gen.Generator) (loops : List Loop)
    (h : deadBlock name { s with gen := g, loops } = .ok (u, s')) (hd : Drawn { s with gen := g, loops } B)
    (hg : A.Grows s.vars.size (fun _ => False) (· = A.chart.current) (fun _ => False) s.Targets B)
    (hidle : ∀ y, B.Idle y → A.Idle y) (hleft : B.Left)
    (hfeeds : Feeds (fun _ => False) s A { s with gen := g, loops } B) : s'.dead = true ∧ s'.vars = s.vars ∧
      Progress (fun _ => False) s A s' (B.newBlock.bury B.chart.size) := by
  obtain ⟨⟨g', rfl⟩, hd', hr'⟩ := deadBlock_ok h hd
  have hg' : B.Grows s.vars.size (fun _ => False) (· = A.chart.current) (fun _ => False) (fun _ => False)
      (B.newBlock.bury B.chart.size) := grows_abandon hd.shows
  refine ⟨rfl, rfl, ⟨hd', ?_, fun y hy => hidle y (idle_abandon hleft hy), ?_, ?_⟩, hr'⟩
  · exact hg.trans hg' le_rfl (fun _ _ h => h) (fun _ _ h => .inl h) (fun _ _ h => h) fun _ _ h => absurd h id
  · exact { evolves_gen s g' with quiet := fun _ => rfl }
  · exact hfeeds.mono hg hg' hd (.refl _) rfl fun _ _ _ _ => id

/-- The current block is left, and nothing comes after it. -/
theorem progress_jump {loops : List Loop} (h : deadBlock name { s with gen := g, loops } = .ok (u, s'))
    (hd : Drawn { s with gen := g, loops } (A.leave c)) (hr : AllReady s A)
    (hc : A.chart.Exits e c) (ht : ∀ y : Label, (y : Int) ∈ e.targets → s.Targets y)
    (hfeeds : Feeds (fun _ => False) s A { s with gen := g, loops } (A.leave c)) :
    s'.dead = true ∧ s'.vars = s.vars ∧
      ∃ A', Progress (fun _ => False) s A s' A' ∧ EndsAt A' A.chart.current A.top e := by
  have hg : A.Grows s.vars.size (fun _ => False) (· = A.chart.current) (fun _ => False) s.Targets
      (A.leave c) := (Sheet.grows_leave hc hr.exit).mono (fun _ _ h => h) (fun _ _ h => .inl h)
        (fun _ _ h => h) fun y _ hy => ht y hy.2
  obtain ⟨hdead, hvars, hp⟩ := progress_abandon _ _ h hd hg (fun y hy => Sheet.idle_leave hc hy)
    (Sheet.left_leave hc) hfeeds
  exact ⟨hdead, hvars, _, hp, rfl, (hc.exit _).trans (if_pos rfl)⟩

section

variable (h : deadBlock name s = .ok (u, s')) (hd : Drawn s A) (hr : AllReady s A)
  (hdead : s.dead = true)
include h hd hr hdead

theorem progress_dead : s'.dead = true ∧ s'.vars = s.vars ∧
      Progress (fun _ => False) s A s' (A.newBlock.bury A.chart.size) :=
  progress_abandon s.gen s.loops h hd (.refl A) (fun _ hy => hy)
    (fun hlive => absurd (hr.dead.2 hdead) hlive) (Progress.refl hd hr).feeds

theorem draws_dead (hnode : node.assigned = []) : ∃ A', Draws [node] s A s' A' := by
  obtain ⟨-, hvars, hp⟩ := progress_dead h hd hr hdead
  refine ⟨_, draws_of_progress hp (by simp [assignedAll, hnode]) (fun hlive => ?_) (fun v hv hlt => ?_)
    fun _ => Leads.holds _ _ _ h⟩
  · rw [hdead] at hlive
    cases hlive
  · rw [hvars] at hlt
    exact absurd hlt (not_lt.2 hv)

end

/-- A statement after which control does not go on. -/
theorem draws_jump (h : Progress (fun _ => False) s A s' A') (hdead : s'.dead = true)
    (hvars : s'.vars = s.vars) (hnode : node.assigned = [])
    (hlaid : s.dead = false → node.Laid A' s.around A.chart.current A.top none)
    (hcalm : node.continues = false → s.Calm s') : Draws [node] s A s' A' := by
  refine draws_of_progress h (by simp [assignedAll, hnode]) (fun hlive => ?_) (fun v hv hlt => ?_)
    fun hn => hcalm (by simpa [continuesAny] using hn)
  · rw [point, hdead]
    exact laidAll_one (hlaid hlive)
  · rw [hvars] at hlt
    exact absurd hlt (not_lt.2 hv)

/-! ## Leaving rounds of loops -/

/-- More edges are noted for the innermost loop. -/
theorem Drawn.feed (hd : Drawn s A) (hs : s.loops = l :: ls) :
    Drawn { s with loops := l.grown bs cs :: ls } A := by
  have hloops : ∀ k ∈ l :: ls, Loop.Fits { s with loops := l.grown bs cs :: ls } A k := fun k hk =>
    { hd.loops k (hs ▸ hk) with }
  have hapart := hd.apart
  rw [hs] at hapart
  refine { hd with
    loops := fun k hk => ?_
    apart := List.pairwise_cons.2 (List.pairwise_cons.1 hapart) }
  rcases List.mem_cons.1 hk with rfl | hk
  · exact (hloops l List.mem_cons_self).grown bs cs
  · exact hloops k (List.mem_cons_of_mem l hk)

/-- Control goes to the end of the innermost loop or to its next round. -/
theorem goto_ok (h : deadBlock name { s with gen := g, loops := l.grown bs cs :: ls } = .ok (u, s'))
    (hd : Drawn s A) (hr : AllReady s A) (hs : s.loops = l :: ls) (hb : b = l.exit ∨ b = l.next)
    (hc : A.chart.Exits (.jump b) c) (hshows : g.Shows (A.leave c))
    (hfed : Fed (fun _ => False) s A s (A.leave c) l bs cs) : s'.dead = true ∧ s'.vars = s.vars ∧
      ∃ A', Progress (fun _ => False) s A s' A' ∧ EndsAt A' A.chart.current A.top (.jump b) := by
  have hd' : Drawn { s with gen := g, loops := l.grown bs cs :: ls } (A.leave c) :=
    (hd.leave hr hc hshows).feed hs
  refine progress_jump h hd' hr hc
    (fun y hy => ⟨l, by simp [hs], List.mem_singleton.1 hy ▸ hb⟩) ⟨by simp [hs], fun k ks hk => ?_⟩
  rw [hs] at hk
  cases hk
  have hsize := (hd.loops l (by simp [hs])).size
  have hcarries : s.Carries { s with gen := g, loops := l.grown bs cs :: ls } :=
    fun _ y hy => ⟨y, hy, rfl, fun hopen => hopen⟩
  exact ⟨bs, cs, rfl, { hfed with
    exit := hfed.exit.carry hcarries hsize
    next := fun hne => (hfed.next hne).carry hcarries hsize }⟩

/-- The current block is left for a block of the loop that nothing is known of. -/
theorem Loop.Fits.shows_jump (h : l.Fits s A) (hd : Drawn s A) (hr : Ready s A p) (hb : b ∈ l.blocks)
    (hpending : A.Pending b.toNat) (position : Position) :
    ((s.gen.setPosition (some position)).terminate (.jump b)).Shows (A.leave (A.chart.terminate (.jump b))) := by
  refine (hd.shows.setPosition (some position)).terminate hr.exit ⟨h.nonneg _ hb, h.lt _ hb⟩ (fun _ => nofun)
    fun y hy => ?_
  rwa [← Int.toNat_natCast y, List.mem_singleton.1 hy]

section

variable (herr : s'.error = none) (hd : Drawn s A) (hr : AllReady s A)
include herr hd hr

theorem leaveLoop_ok (h : leaveLoop position s = .ok (u, s')) : ∃ A', Draws [.leave] s A s' A' := by
  replace h := Attempt.get_ok (ready_ok (attempt_ok h herr))
  rcases hs : s.loops with _ | ⟨l, ls⟩ <;> rw [hs] at h
  · cases h
  dsimp only at h
  by_cases hdead : s.dead = true
  · rw [hdead] at h
    exact draws_dead (Attempt.lift_ok h) hd hr hdead rfl
  have hlive : s.dead = false := by simpa using hdead
  rw [if_pos (by rw [hlive]; rfl)] at h
  have h1 : deadBlock "break" { s with
      gen := (s.gen.setPosition (some position)).terminate (.jump l.exit)
      loops := { l with breaks := l.breaks ++ [s.flow l.size] } :: ls } = .ok (u, s') :=
    Attempt.lift_ok h
  have hgrown : { l with breaks := l.breaks ++ [s.flow l.size] } = l.grown [s.flow l.size] [] := by
    simp [Loop.grown]
  rw [hgrown] at h1
  have hfits := hd.loops l (by simp [hs])
  have hc := A.chart.exits_terminate (.jump l.exit)
  have hshows := hfits.shows_jump hd hr List.mem_cons_self hfits.exit.pending position
  have hfed : Fed (fun _ => False) s A s _ l [s.flow l.size] [] := {
    exit := arrives_leave hd (hr.mono fun _ _ => trivial) hlive hfits.size hc
      (List.mem_singleton.2 hfits.exit_cast)
    next := fun hne => arrives_nil (hr.grows_leave hc) (hfits.next hne).pending.lt fun hy =>
        hfits.exit_ne_next ((List.mem_singleton.1 hy.2).symm.trans hfits.next_cast)
    no_next := fun _ => rfl
    live := fun h => absurd h hdead
    kept := List.forall_mem_nil _ }
  obtain ⟨hdead', hvars, A', hp, hend⟩ := goto_ok h1 hd hr hs (.inl rfl) hc hshows hfed
  refine ⟨A', draws_jump hp hdead' hvars rfl (fun _ => ⟨⟨_, by rw [Sketch.around, hs]; rfl, ?_⟩, rfl⟩)
    fun _ => ?_⟩
  · rw [hfits.exit_cast]
    exact hend
  · refine Lasting.trans (R := Sketch.Calm) ?_ (Leads.holds _ _ _ h1)
    simp [Sketch.Calm, Sketch.continues, hs, Loop.grown]

theorem nextRound_ok (h : nextRound position s = .ok (u, s')) : ∃ A', Draws [.next] s A s' A' := by
  replace h := Attempt.get_ok (ready_ok (attempt_ok h herr))
  rcases hs : s.loops with _ | ⟨l, ls⟩ <;> rw [hs] at h
  · cases h
  dsimp only at h
  by_cases hdead : s.dead = true
  · rw [hdead] at h
    exact draws_dead (Attempt.lift_ok h) hd hr hdead rfl
  have hlive : s.dead = false := by simpa using hdead
  rw [if_pos (by rw [hlive]; rfl)] at h
  have hfits := hd.loops l (by simp [hs])
  have hmem : l.next ∈ l.blocks := List.mem_cons_of_mem _ List.mem_cons_self
  have hexit : ∀ c, A.chart.Exits (.jump l.next) c →
      Arrives s A (A.leave c) l.exit.toNat l.size [] := fun c hc =>
    arrives_nil (hr.grows_leave hc) hfits.exit.pending.lt fun hy =>
        hfits.exit_ne_next (hfits.exit_cast.symm.trans (List.mem_singleton.1 hy.2))
  suffices hgoto : s'.dead = true ∧ s'.vars = s.vars ∧
      ∃ A', Progress (fun _ => False) s A s' A' ∧ EndsAt A' A.chart.current A.top (.jump l.next) by
    obtain ⟨hdead', hvars, A', hp, hend⟩ := hgoto
    refine ⟨A', draws_jump hp hdead' hvars rfl (fun _ => ⟨⟨_, by rw [Sketch.around, hs]; rfl, ?_⟩, rfl⟩) nofun⟩
    rw [hfits.next_cast]
    exact hend
  obtain ⟨_, t, hterm, h1⟩ := Attempt.bind_ok h
  cases Attempt.lift_ok hterm
  by_cases heq : l.next = l.head
  · -- The next round starts at the head, to which the values come back.
    rw [if_pos heq] at h1
    obtain ⟨_, t, hback, h2⟩ := Attempt.bind_ok h1
    replace hback := Attempt.lift_ok hback
    rw [backEdge_run] at hback
    cases hback
    have h3 : deadBlock "continue" { s with
        gen := ((s.gen.setPosition (some position)).terminate (.jump l.next)).addPairs
          s.gen.current (l.returned s)
        loops := l.grown [] [] :: ls } = .ok (u, s') := by
      rw [l.grown_nil, ← hs]
      exact Attempt.lift_ok h2
    have hc : A.chart.Exits (.jump l.next) _ := Sheet.exits_joinPairs A.chart (.jump l.next) (l.returned s)
    have hshows := hfits.shows_back position (e := .jump l.next) hd
      (hr.mono fun _ _ => trivial) hlive ⟨hfits.nonneg _ hmem, hfits.lt _ hmem⟩
      (List.forall_mem_nil _) (List.mem_singleton.2 heq.symm)
      fun y hy hne => absurd ((List.mem_singleton.1 hy).trans heq) hne
    have hfed : Fed (fun _ => False) s A s _ l [] [] := {
      exit := hexit _ hc
      next := fun hne => absurd heq hne
      no_next := fun _ => rfl
      live := fun _ => ⟨rfl, rfl⟩
      kept := List.forall_mem_nil _ }
    exact goto_ok h3 hd hr hs (.inr rfl) hc hshows hfed
  · rw [if_neg heq] at h1
    have h2 : deadBlock "continue" { s with
        gen := (s.gen.setPosition (some position)).terminate (.jump l.next)
        loops := { l with continues := l.continues ++ [s.flow l.size] } :: ls } = .ok (u, s') :=
      Attempt.lift_ok h1
    have hgrown : { l with continues := l.continues ++ [s.flow l.size] } =
        l.grown [] [s.flow l.size] := by
      simp [Loop.grown]
    rw [hgrown] at h2
    have hc := A.chart.exits_terminate (.jump l.next)
    have hfed : Fed (fun _ => False) s A s _ l [] [s.flow l.size] := {
      exit := hexit _ hc
      next := fun _ => arrives_leave hd (hr.mono fun _ _ => trivial) hlive hfits.size hc
        (List.mem_singleton.2 hfits.next_cast)
      no_next := fun h => absurd h heq
      live := fun h => absurd h hdead
      kept := fun f hf p hp v y hy hopen _ => by
        rw [List.mem_singleton.1 hf] at hp
        obtain rfl := Int.ofNat_inj.1 (hd.shows.current.symm.trans hp)
        exact hr.env hlive v y trivial hy hopen }
    exact goto_ok h2 hd hr hs (.inr rfl) hc
      (hfits.shows_jump hd hr hmem (hfits.next heq).pending position) hfed

end

/-! ## Returning -/

theorem resultOf_ok {x : Operand} {r : Option Ref} (hd : Drawn s A) (hr : AllReady s A)
    (hx : x.Refers s) (h : (resultOf x position).run s = .ok (.ok r, s')) :
    r = none ∧ x.result s.sig.result = none ∧ s.sig.result = .void ∧ s = s' ∨
      ∃ y q A', r = some q ∧ x.result s.sig.result = some y ∧ s.sig.result ≠ .void ∧
        Fetched s A s' A' y q s.sig.result := by
  have h1 := Attempt.get_ok h
  rw [Operand.result]
  by_cases hnothing : x.isNothing = true
  · rw [if_pos hnothing] at h1 ⊢
    split at h1
    · obtain ⟨rfl, rfl⟩ := Attempt.pure_ok h1
      exact .inl ⟨rfl, rfl, Ty.isVoid_iff.1 ‹_›, rfl⟩
    · cases h1
  · rw [if_neg hnothing] at h1 ⊢
    obtain ⟨hvoid, h2⟩ := Attempt.check_ok h1
    obtain ⟨q, t, hoperand, h3⟩ := Attempt.bind_ok h2
    obtain ⟨rfl, rfl⟩ := Attempt.pure_ok h3
    obtain ⟨A', hf⟩ := operandOf_ok hd hr hx (hd.result.resolve_left hvoid) hoperand
    exact .inr ⟨x.source s.sig.result, q, A', rfl, rfl, fun heq => hvoid (Ty.isVoid_iff.2 heq), hf⟩

/-- If control gets there, the current block is left for good. -/
theorem return_ok {x : Option Ref}
    (h : (do if !(← get).dead then terminate (.ret x) position
             deadBlock "return" : Attempt Unit).run s = .ok (.ok u, s'))
    (hd : Drawn s A) (hr : AllReady s A)
    (hx : (Exit.ret x).Fits A.chart.sig.result A.chart.size A.chart.ty)
    (hheld : s.dead = false → ∀ y ∈ (Exit.ret x).reads, A.Held A.chart.current A.top y) :
    s'.dead = true ∧ s'.vars = s.vars ∧ ∃ A', Progress (fun _ => False) s A s' A' ∧
      (s.dead = false → EndsAt A' A.chart.current A.top (.ret x)) := by
  have h1 := Attempt.get_ok h
  by_cases hdead : s.dead = true
  · rw [hdead] at h1
    obtain ⟨hdead', hvars, hp⟩ := progress_dead (Attempt.lift_ok h1) hd hr hdead
    exact ⟨hdead', hvars, _, hp, fun hlive => absurd hdead (by simp [hlive])⟩
  rw [if_pos (by simpa using hdead)] at h1
  have h2 : deadBlock "return" { s with
      gen := (s.gen.setPosition (some position)).terminate (.ret x) } = .ok (u, s') :=
    Attempt.lift_ok h1
  have hc := A.chart.exits_terminate (.ret x)
  have hshows := (hd.shows.setPosition (some position)).terminate hr.exit hx
    (fun hlive => hheld (hr.live hlive)) nofun
  obtain ⟨hdead', hvars, A', hp, hend⟩ := progress_jump h2 (hd.leave hr hc hshows) hr hc
    nofun (feeds_none hd (hr.grows_leave hc) rfl fun _ _ _ _ hy => absurd hy.2 List.not_mem_nil)
  exact ⟨hdead', hvars, A', hp, fun _ => hend⟩

theorem ret_ok {x : Operand} (herr : s'.error = none) (hd : Drawn s A) (hr : AllReady s A)
    (hx : x.Refers s) (h : ret x position s = .ok (u, s')) :
    ∃ A', Draws [.ret (x.result s.sig.result)] s A s' A' := by
  obtain ⟨r, t, hresult, h2⟩ := Attempt.bind_ok (ready_ok (attempt_ok h herr))
  rcases resultOf_ok hd hr hx hresult with ⟨rfl, hnone, hvoid, rfl⟩ | ⟨y, q, B, rfl, hsome, hvoid, hf⟩
  · obtain ⟨hdead, hvars, A', hp, hend⟩ := return_ok h2 hd hr (hd.sig ▸ hvoid) fun _ => nofun
    rw [hnone]
    exact ⟨A', draws_jump hp hdead hvars rfl (fun hlive => ⟨hend hlive, rfl⟩) fun _ =>
      LeadsAttempt.run.holds _ _ _ h2⟩
  · have hheld : t.dead = false → ∀ z ∈ (Exit.ret (some q)).reads, B.Held B.chart.current B.top z := by
      intro hlive z hz
      rw [List.mem_singleton.1 hz, hf.current]
      exact hf.held (hf.dead ▸ hlive)
    obtain ⟨hdead, hvars, A', hp, hend⟩ := return_ok h2 hf.progress.drawn hf.ready
      ⟨hf.progress.grows.sig ▸ hd.sig ▸ hvoid, hf.ty.2.trans (hf.progress.grows.sig ▸ hd.sig ▸ rfl)⟩ hheld
    rw [hsome]
    refine ⟨A', draws_jump ((hf.progress.trans hp hd).congr fun v => or_self_iff) hdead
      (hvars.trans hf.vars) rfl (fun hlive => ⟨⟨q, B.top, (hf.fetches hlive).mono hp.grows.ext, ?_⟩, rfl⟩)
      fun _ => Lasting.trans hf.calm (LeadsAttempt.run.holds _ _ _ h2)⟩
    rw [← hf.current]
    exact hend (hf.dead.trans hlive)

end Codesmith.Describe
