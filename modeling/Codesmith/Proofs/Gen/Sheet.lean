import Codesmith.Proofs.Chart.Merge
import Codesmith.Proofs.Gen.Generator

/-!
# Generators that draw sheets

A generator shows a sheet if it describes the chart of the sheet. Each call to the generator has its step
on the sheet.
-/

namespace Codesmith.Gen

variable {g : Generator} {c : Chart} {l : Label} {es : List EdgeValue}

namespace Sheet

/-- The sheet with a new value in the current block. -/
def value (A : Sheet) (x : Ref) (op : Operation) : Sheet :=
  A.push (.line (.compute x op.compute)) (A.chart.value x op)

def store (A : Sheet) (t : Ty) (p x : Ref) : Sheet :=
  A.push (.line (.store t.kind p x)) (A.chart.store t p x)

/-- The sheet where a variable is kept in a value from now on. -/
def note (A : Sheet) (v : Nat) (x : Ref) : Sheet :=
  A.push (.note v x) A.chart

end Sheet

/-- The generator describes the chart of a sound sheet, in which no edge leads to the entry and control
gets to all that is described. -/
structure Generator.Shows (g : Generator) (A : Sheet) : Prop where
  models : g.Models A.chart
  consistent : A.chart.Consistent
  sound : A.Sound
  entry : ∀ p, ¬ A.Edge p Graph.entry
  reached : A.Reached

namespace Generator.Shows

variable {g g' : Generator} {A : Sheet} {l h : Label} {e : Exit}
variable {c : Chart} {x : Ref}

section

variable (hg : g.Shows A)
include hg

theorem setPosition (p : Option Position) : (g.setPosition p).Shows A :=
  { hg with models := hg.models.setPosition p }

theorem current : g.current = A.chart.current :=
  hg.models.current

/-! ## Items -/

theorem edge_push {it : Item} (hc : A.chart.Adds it c) (p : Label) : ¬ (A.push it c).Edge p Graph.entry := by
  rw [Sheet.Edge, show (A.push it c).chart = c from rfl, hc.succs]
  exact hg.entry p

theorem value (hexit : A.chart.Unended) {op : Operation} (hop : op.Fits A.chart.ty)
    (hheld : ¬ A.dead A.chart.current → ∀ x ∈ op.compute.reads, A.Held A.chart.current A.top x) :
    ∃ x g', g.value op = (x, g') ∧ A.chart.home x = none ∧ g'.Shows (A.value x op) := by
  obtain ⟨x, g', hvalue, hx, h0, hm⟩ := hg.models.value hg.consistent hexit hop
  have hc := Chart.adds_value hx op
  refine ⟨x, g', hvalue, hx, hm, hg.consistent.value hx h0 hop, ?_, hg.edge_push hc, hg.reached.push hc⟩
  refine hg.sound.push hg.consistent hc hexit ?_ (fun _ _ => nofun) hheld
  rintro a y ha hy
  cases ha
  cases hy
  exact hx

theorem store (hexit : A.chart.Unended) {t : Ty} {p : Ref}
    (hp : (A.chart.ty p).isPtr = true) (hx : A.chart.ty x = t) (ht : t.kind ≠ .invalid)
    (hheld : ¬ A.dead A.chart.current → A.Held A.chart.current A.top p ∧ A.Held A.chart.current A.top x) :
    (g.store t p x).Shows (A.store t p x) := by
  have hc := A.chart.adds_store t p x
  refine ⟨hg.models.store hg.consistent hexit hp hx ht, hg.consistent.store hp hx ht, ?_,
    hg.edge_push hc, hg.reached.push hc⟩
  refine hg.sound.push hg.consistent hc hexit ?_ (fun _ _ => nofun) fun hl y hy => ?_
  · rintro a y ha hy
    cases ha
    cases hy
  · obtain ⟨hp, hx⟩ := hheld hl
    rcases List.mem_cons.1 hy with rfl | hy
    · exact hp
    · exact List.mem_singleton.1 hy ▸ hx

theorem note (hexit : A.chart.Unended) (v : Nat) (hx : A.chart.home x ≠ none)
    (hheld : ¬ A.dead A.chart.current → A.Held A.chart.current A.top x) : g.Shows (A.note v x) := by
  have hc := A.chart.adds_note v x
  refine ⟨hg.models, hg.consistent, ?_, hg.edge_push hc, hg.reached.push hc⟩
  refine hg.sound.push hg.consistent hc hexit (fun _ _ => nofun) ?_ fun hl y hy => ?_
  · rintro w y hy
    cases hy
    exact hx
  · exact List.mem_singleton.1 hy ▸ hheld hl

/-! ## Blocks -/

theorem newBlock (name : String) :
    ∃ g', g.newBlock name = .ok ((A.chart.size : Int), g') ∧ g'.Shows A.newBlock := by
  obtain ⟨g', hnew, hm⟩ := hg.models.newBlock hg.consistent name
  exact ⟨g', hnew, hm, hg.consistent.newBlock, hg.sound.newBlock, hg.entry, hg.reached⟩

theorem setBlock (hl : A.Pending l) : ∃ g', g.setBlock l = .ok g' ∧ g'.Models (A.chart.setBlock l) := by
  have := hg.models.setBlock ⟨Int.natCast_nonneg l, Int.ofNat_lt.2 hl.lt⟩
  rwa [Int.toNat_natCast] at this

theorem bury (hl : A.Pending l) (hedge : ∀ p, A.Edge p l → A.dead p) :
    ∃ g', g.setBlock l = .ok g' ∧ g'.Shows (A.bury l) := by
  obtain ⟨g', hset, hm⟩ := hg.setBlock hl
  exact ⟨g', hset, hm, hg.consistent.setBlock hl.lt, hg.sound.bury hl hedge, hg.entry, hg.reached.bury⟩

/-- A block where edges meet is entered, after its values have been made. -/
theorem meet (hl : A.Pending l) (hedge : ∃ p, ¬ A.dead p ∧ A.Edge p l) {ws : List Junction} (hm : g'.Models c)
    (hc : A.chart.Opening l ws c) (hws : ∀ w ∈ ws, A.Joined l w) {K : Nat → Ref → Prop}
    (hK : ∀ v x, K v x → A.Met l ws v x) (hphi : ∀ w ∈ ws, K w.var w.value) : g'.Shows (A.enter l K c) where
  models := hm
  consistent := hc.consistent
  sound := hg.sound.meet hg.consistent hl hc hws hK hphi
  entry p := by
    rw [Sheet.Edge, show (A.enter l K c).chart = c from rfl, hc.opens.succs]
    exact hg.entry p
  reached := by
    obtain ⟨p, hp, he⟩ := hedge
    exact hg.reached.enter hc.opens hp he

/-! ## Exits -/

/-- The edges to the entry do not change if no exit leads there. -/
theorem edge_leave (hc : A.chart.Exits e c) (hentry : (Graph.entry : Int) ∉ e.targets) (p : Label) :
    ¬ (A.leave c).Edge p Graph.entry := by
  rw [Sheet.Edge, show (A.leave c).chart = c from rfl, hc.edge]
  split
  · exact hentry
  · exact hg.entry p

/-- The current block is left for blocks that nothing is known of. -/
theorem terminate (hexit : A.chart.Unended) (hfits : e.Fits A.chart.sig.result A.chart.size A.chart.ty)
    (hheld : ¬ A.dead A.chart.current → ∀ x ∈ e.reads, A.Held A.chart.current A.top x)
    (htargets : ∀ t : Label, (t : Int) ∈ e.targets → A.Pending t) :
    (g.terminate e).Shows (A.leave (A.chart.terminate e)) := by
  have hc := A.chart.exits_terminate e
  refine ⟨hg.models.terminate hg.consistent hexit hfits, hg.consistent.terminate hfits, ?_,
    hg.edge_leave hc fun h => (htargets _ h).ne rfl, hg.reached.leave hc hexit⟩
  refine hg.sound.leave hc hexit hheld (fun _ t ht => (htargets t ht).alive)
    (fun _ t ht v x hk => absurd hk ((htargets t ht).unknown 0 v x)) (fun _ t ht x hx => ?_)
    (fun l x _ e' he' hne => absurd he' hne)
  rw [(htargets t ht).phis] at hx
  cases hx

end

end Generator.Shows

/-- The generator that was told what a value at the head of a block joins. -/
def Generator.addAll (g : Generator) (x : Ref) (es : List EdgeValue) : Generator :=
  es.foldl (fun g e => g.addIncoming x e.source e.ref) g

theorem Generator.Models.addAll (hm : g.Models c) (hc : c.Consistent) {x : Ref}
    (hx : c.home x = some ⟨l, none⟩) (hes : ∀ e ∈ es, 0 ≤ e.source ∧ e.source < c.size) :
    (g.addAll x es).Models (es.foldl (fun c e => c.join x e.source e.ref) c) := by
  induction es generalizing g c with
  | nil => exact hm
  | cons e es ih =>
    have he := hes e List.mem_cons_self
    exact ih (hm.addIncoming hc hx he e.ref) (hc.join hx he) hx fun e' he' =>
      hes e' (List.mem_cons_of_mem e he')

theorem Generator.Models.openPhi (hm : g.Models c) (hc : c.Consistent) (hl : l < c.size) {t : Ty}
    (ht : t.kind ≠ .invalid) (hes : ∀ e ∈ es, 0 ≤ e.source ∧ e.source < c.size) :
    ∃ x g', g.phi l t = (x, g') ∧ c.home x = none ∧ 0 ≤ x ∧ (g'.addAll x es).Models (c.openPhi l x t es) := by
  obtain ⟨x, g', hphi, hx, h0, hm'⟩ := hm.phi hc ⟨Int.natCast_nonneg l, Int.ofNat_lt.2 hl⟩ ht
  rw [Int.toNat_natCast] at hm'
  have hhome : (c.phi x l t).home x = some ⟨l, none⟩ := Function.update_self _ _ _
  exact ⟨x, g', hphi, hx, h0, hm'.addAll (hc.phi_call hx h0 hl ht) hhome hes⟩

/-- The generator that was told what comes to the values at the head of a loop on an edge back to it. -/
def Generator.addPairs (g : Generator) (source : BlockId) (ps : List (Ref × Ref)) : Generator :=
  ps.foldl (fun g p => if p.1 = noRef then g else g.addIncoming p.1 source p.2) g

theorem Generator.Models.addPairs (hm : g.Models c) (hc : c.Consistent) {source : BlockId}
    (hs : 0 ≤ source ∧ source < c.size) {ps : List (Ref × Ref)}
    (hps : ∀ p ∈ ps, p.1 ≠ noRef → ∃ l, c.home p.1 = some ⟨l, none⟩) :
    (g.addPairs source ps).Models (c.joinPairs source ps) ∧ (c.joinPairs source ps).Consistent := by
  induction ps generalizing g c with
  | nil => exact ⟨hm, hc⟩
  | cons p ps ih =>
    have hrest : ∀ p' ∈ ps, p'.1 ≠ noRef → ∃ l, c.home p'.1 = some ⟨l, none⟩ := fun p' hp' =>
      hps p' (List.mem_cons_of_mem p hp')
    rw [Generator.addPairs, Chart.joinPairs, List.foldl_cons, List.foldl_cons]
    split
    · exact ih hm hc hs hrest
    · rename_i hp
      obtain ⟨l, hl⟩ := hps p List.mem_cons_self hp
      exact ih (hm.addIncoming hc hl hs p.2) (hc.join hl hs) hs hrest

namespace Generator.Shows

variable {g : Generator} {A : Sheet} {h : Label} {e : Exit} {phis rs : List Ref}

/-- The current block is left for the head of a loop, or for blocks that nothing is known of. -/
theorem back (hg : g.Shows A) (hexit : A.chart.Unended)
    (hfits : e.Fits A.chart.sig.result A.chart.size A.chart.ty) (hh : A.Heads h phis)
    (hdead : ¬ A.dead h) (hne : h ≠ Graph.entry)
    (hheld : ∀ x ∈ e.reads, A.Held A.chart.current A.top x) (hhead : (h : Int) ∈ e.targets)
    (hother : ∀ t : Label, (t : Int) ∈ e.targets → t ≠ h → A.Pending t)
    (hrs : A.Returns phis rs) :
    ((g.terminate e).addPairs A.chart.current (phis.zip rs)).Shows
      (A.leave ((A.chart.terminate e).joinPairs A.chart.current (phis.zip rs))) := by
  have hc := hg.consistent
  have hphi : ∀ p ∈ phis.zip rs, p.1 ≠ noRef →
      ∃ l, (A.chart.terminate e).home p.1 = some ⟨l, none⟩ := fun p hp hpne => by
    obtain ⟨v, hv⟩ := List.mem_iff_getElem?.1 (List.of_mem_zip hp).1
    exact ⟨h, (hc.phi h p.1).1 (hh.mem_iff.2 ⟨v, hv, hpne⟩)⟩
  obtain ⟨hm, hc'⟩ := (hg.models.terminate hc hexit hfits).addPairs (hc.terminate hfits)
    ⟨Int.natCast_nonneg _, Int.ofNat_lt.2 hc.current⟩ hphi
  refine ⟨hm, hc', hg.sound.back hc hexit hh hdead hheld hhead hother hrs, ?_,
    hg.reached.leave (Sheet.exits_joinPairs A.chart e _) hexit⟩
  refine hg.edge_leave (Sheet.exits_joinPairs A.chart e _) fun hentry => ?_
  by_cases heq : Graph.entry = h
  · exact hne heq.symm
  · exact (hother _ hentry heq).ne rfl

end Generator.Shows

end Codesmith.Gen
