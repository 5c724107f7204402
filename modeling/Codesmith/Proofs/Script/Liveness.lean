import Codesmith.Proofs.Script.Meaning

/-!
# What a description knows of control

While a function is described, a flag tells whether control gets to the block that is being built. The flag
is exact at every point of a description that is not rejected: it agrees with the graph of the blocks that
were ended so far. A block that is built while the flag is set stays out of reach for good. So in the end
the values that join others at the head of a block have one value for each edge on which control comes.
-/

namespace Codesmith

/-! ## The graph of a generator -/

namespace Gen.Generator

variable {l : Label} {x : Nat}

/-- The blocks that follow a block. -/
def succs : Generator → Label → List Int
  | machine g, l => g.succs l
  | ssa g, l => (g.func.map fun f => f.succsOf l).getD []

/-- Control gets from the entry to a block, as far as blocks have ended. -/
def Reaches (g : Generator) (b : BlockId) : Prop :=
  ∃ l : Label, b = l ∧ Graph.Reaches g.succs l

/-- The values that join others at the head of a block. -/
def phis : Generator → Label → List Nat
  | machine g, l => (g.blocks[l]?.map MachineBlock.phis).getD []
  | ssa g, l => ((g.func.bind fun f => f.blocks[l]?).map Ssa.Block.phis).getD []

/-- The values that a value joins, with the blocks they come from. -/
def incoming : Generator → Nat → List EdgeValue
  | machine g, x => (g.defs[x]?.map Def.incoming).getD []
  | ssa g, x => (g.func.map fun f => (f.branches x).map fun b => ⟨b.block, b.value⟩).getD []

variable {g : Generator} {c : Chart}

theorem Models.succs (h : g.Models c) (hc : c.Consistent) : g.succs = c.succs := by
  cases g with
  | machine g => exact (show g.Models c from h).draws.succs hc
  | ssa g =>
    obtain ⟨f, hf, hm⟩ := (show g.Models c from h).func
    funext l
    rw [Generator.succs, hf, ← Ssa.Func.succsOf_eq hc hm.size hm.block]
    rfl

theorem Models.reaches_iff (h : g.Models c) (hc : c.Consistent) : g.Reaches l ↔ Graph.Reaches c.succs l := by
  rw [Generator.Reaches, h.succs hc]
  exact ⟨fun ⟨k, hk, hr⟩ => Int.ofNat.inj hk ▸ hr, fun hr => ⟨l, rfl, hr⟩⟩

theorem Models.phi_of_mem (h : g.Models c) (hx : x ∈ g.phis l) : (x : Ref) ∈ (c.block l).phis := by
  cases g with
  | machine g =>
    have h : g.Models c := h
    rw [phis] at hx
    cases hb : g.blocks[l]? with
    | none => simp [hb] at hx
    | some b =>
      rw [hb] at hx
      rw [← (h.block l b hb).phis]
      exact List.mem_map_of_mem hx
  | ssa g =>
    obtain ⟨f, hf, hm⟩ := (show g.Models c from h).func
    rw [phis, hf, Option.bind_some] at hx
    cases hb : f.blocks[l]? with
    | none => simp [hb] at hx
    | some b =>
      rw [hb] at hx
      rw [← (hm.block l b hb).phis]
      exact List.mem_map_of_mem hx

theorem Models.incoming (h : g.Models c) (hc : c.Consistent) (hx : (x : Ref) ∈ (c.block l).phis) :
    g.incoming x = c.incoming x := by
  cases g with
  | machine g =>
    have h : g.Models c := h
    rw [Generator.incoming, h.incoming, fetch?_natCast]
  | ssa g =>
    obtain ⟨f, hf, hm⟩ := (show g.Models c from h).func
    rw [Generator.incoming, hf, Option.map_some, Option.getD_some, Ssa.Func.branches,
      hm.phi x l ((hc.phi l x).1 hx), Option.getD_some, List.map_map]
    exact List.map_id _

end Gen.Generator

namespace Gen.Sheet

variable {A B : Sheet}

theorem Extends.reaches (h : A.Extends B) {l : Label} (hl : Graph.Reaches A.chart.succs l) :
    Graph.Reaches B.chart.succs l := by
  refine hl.mono fun p q hpq => ?_
  rw [Graph.Edge, Chart.succs] at hpq ⊢
  cases hexit : (A.chart.block p).exit with
  | none => simp [hexit] at hpq
  | some e =>
    rw [hexit] at hpq
    rwa [(h.exit p e hexit).1]

end Gen.Sheet

namespace Script

open Gen (Sheet)
open Describe

variable {config : Config} {name : String} {sig : Signature} {body : List Stmt} {s t : Sketch}

/-! ## The points of a description -/

/-- What a script has described when it stops with a fault. -/
def stopped? (config : Config) (name : String) (sig : Signature) (body : List Stmt) : Option Sketch :=
  match Sketch.start config 0 name sig ⟨"new", 1⟩ with
  | .ok (.ok s) =>
    match execAll body ⟨#[s], { config }⟩ with
    | (.error _, w) => w.sketches[0]?
    | _ => none
  | _ => none

/-- What a script has described at some point: where it stops within a statement or between two of them, or
at its end. -/
inductive Passes (config : Config) (name : String) (sig : Signature) (body : List Stmt) : Sketch → Prop
  | within {q : List Stmt} {s : Sketch} : CutAll body q → stopped? config name sig q = some s →
    Passes config name sig body s
  | done {s : Sketch} : sketch? config name sig body = some s → Passes config name sig body s

theorem stopped?_of_stops {s0 : Sketch} {A : Sheet} (hstart : Sketch.start config 0 name sig ⟨"new", 1⟩ = .ok (.ok s0))
    (h : Stops (execAll body) ⟨#[s0], { config }⟩ A) :
    ∃ t B, stopped? config name sig body = some t ∧ Drawn t B ∧ AllReady t B ∧ B.Extends A := by
  obtain ⟨f, w, t, B, hrun, hw, hd, hr, hB⟩ := h
  refine ⟨t, B, ?_, hd, hr, hB⟩
  simp only [stopped?, hstart, hrun, hw]
  rfl

namespace Drafted

variable {s0 : Sketch} {A0 A : Sheet}

/-- At every point the sketch is drawn on a sheet from which the description goes on. -/
theorem passes (h : Drafted config name sig body s0 s A0 A) (hs : sketch? config name sig body = some s)
    (ht : Passes config name sig body t) : ∃ B, Drawn t B ∧ AllReady t B ∧ B.Extends A := by
  cases ht with
  | within hq ht =>
    obtain ⟨t', B, ht', hB⟩ := stopped?_of_stops h.start (h.stops _ hq)
    cases ht.symm.trans ht'
    exact ⟨B, hB⟩
  | done ht =>
    cases hs.symm.trans ht
    exact ⟨A, h.draws.progress.drawn, h.draws.progress.ready, .refl A⟩

end Drafted

/-! ## The flag for control -/

variable {A B : Sheet}

/-- The flag tells whether control gets to the current block. -/
theorem live_iff_reaches (hd : Drawn s A) (hr : AllReady s A) :
    s.dead = false ↔ Graph.Reaches A.chart.succs A.chart.current := by
  rw [← Bool.not_eq_true, ← hr.dead]
  exact ⟨fun hlive => hd.shows.reached _ hlive (.inl rfl), hd.shows.sound.not_dead⟩

/-- Liveness tracking is exact. At every point of a script that is not rejected, the flag is clear just if
control gets to the current block along the blocks that have ended, and the current block has not ended; if
the flag is set, control never gets to that block. In the end each value at the head of a block in reach
joins one value from each predecessor in reach, and none from other blocks in reach. -/
theorem liveness_exact (hbody : plainAll body = true) (h : sketch? config name sig body = some s) :
    (∀ q, CutAll body q → ∃ t, stopped? config name sig q = some t) ∧
    (∀ t, Passes config name sig body t →
      (t.dead = false ↔ t.gen.Reaches t.gen.current) ∧ t.gen.terminated = .ok false ∧
        (t.dead = true → ∀ u, Passes config name sig body u → ¬ u.gen.Reaches t.gen.current)) ∧
    ∀ (l : Label) (x : Nat), s.gen.Reaches l → x ∈ s.gen.phis l →
      (∀ p : Label, s.gen.Reaches p → Graph.Edge s.gen.succs p l →
        (s.gen.incoming x).countP (fun e => e.source == (p : Int)) = 1) ∧
      ∀ e ∈ s.gen.incoming x, s.gen.Reaches e.source → Graph.Edge s.gen.succs e.source.toNat l := by
  obtain ⟨s0, A0, A, -, hd⟩ := drafted h hbody (False.elim : False → _)
  have hshows := hd.draws.progress.drawn.shows
  refine ⟨fun q hq => ?_, fun t ht => ?_, fun l x hl hx => ?_⟩
  · obtain ⟨t, -, ht, -⟩ := stopped?_of_stops hd.start (hd.stops q hq)
    exact ⟨t, ht⟩
  · obtain ⟨B, hB, hr, hBA⟩ := hd.passes h ht
    rw [hB.shows.current, hB.shows.models.reaches_iff hB.shows.consistent,
      hB.shows.models.terminated hB.shows.consistent, hr.exit]
    refine ⟨live_iff_reaches hB hr, rfl, fun hdead u hu hreach => ?_⟩
    obtain ⟨C, hC, -, hCA⟩ := hd.passes h hu
    rw [hC.shows.models.reaches_iff hC.shows.consistent] at hreach
    exact hshows.sound.not_dead (hCA.reaches hreach) (hBA.dead _ (hr.dead.2 hdead))
  · have hphi := hshows.models.phi_of_mem hx
    rw [hshows.models.incoming hshows.consistent hphi, hshows.models.succs hshows.consistent]
    refine ⟨fun p hp hedge => ?_, fun e he _ => (hshows.sound.each l x e hphi he).1⟩
    rw [hshows.models.reaches_iff hshows.consistent] at hp
    exact hshows.sound.one p l x (hshows.sound.not_dead hp) hedge hphi

/-- Behind the jump to the next round the flag is set, and control never gets to what is described there. -/
theorem liveness_exact_oddSum : ∃ q s t, CutAll oddSum q ∧ stopped? {} "sum" ⟨[.i64], .i64⟩ q = some t ∧
    sketch? {} "sum" ⟨[.i64], .i64⟩ oddSum = some s ∧ t.dead = true ∧ ¬ t.gen.Reaches t.gen.current ∧
    ¬ s.gen.Reaches t.gen.current := by
  have hstop : ∃ q, CutAll oddSum q ∧ (stopped? {} "sum" ⟨[.i64], .i64⟩ q).map Sketch.dead = some true :=
    ⟨_, .later _ (.later _ (.within _ (.forBody (.stmts (.later _ (.later _ (.within _
      (.ifThen (.stmts (.later _ (.here [] .divideByZero))))))))))), by decide +kernel⟩
  obtain ⟨q, hq, hdead⟩ := hstop
  obtain ⟨t, ht, htdead⟩ := Option.map_eq_some_iff.1 hdead
  have hsome : (sketch? {} "sum" ⟨[.i64], .i64⟩ oddSum).isSome = true := by decide +kernel
  obtain ⟨s, hs⟩ := Option.isSome_iff_exists.1 hsome
  obtain ⟨-, hpoint, -⟩ := liveness_exact (by decide +kernel) hs
  obtain ⟨hlive, -, hnever⟩ := hpoint t (.within hq ht)
  refine ⟨q, s, t, hq, ht, hs, htdead, fun hreach => ?_, hnever htdead s (.done hs)⟩
  exact absurd (hlive.2 hreach) (by simp [htdead])

end Script

end Codesmith
