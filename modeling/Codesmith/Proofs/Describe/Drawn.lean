import Codesmith.Proofs.Describe.Typed
import Codesmith.Proofs.Direct.Layout
import Codesmith.Proofs.Gen.Sheet

/-!
# Sketches on sheets

The generator of a sketch draws a sheet. `Drawn` says how the rest of the sketch goes with the sheet: the
blocks to which the loops lead are there, and the edges to them bring the variables as the sketch has
noted. `Ready` says that every variable in scope is kept in its value at the current point.

`Progress` is what describing a part does to a sketch and its sheet. It says what may change while the
part is described: the current block, what the part assigns to, and the edges that leave the innermost
loop or go to its next round.
-/

namespace Codesmith

namespace BitSet.Plain

@[simp] theorem contains_empty (k : Int) : empty.contains k = false := by
  simp [contains, empty]

@[simp] theorem contains_add (s : Plain) (i : Nat) (k : Int) :
    (s.add i).contains k = true ↔ k = i ∨ s.contains k = true := by
  simp only [contains, add, insertBit, Bool.and_eq_true, decide_eq_true_eq, Nat.testBit_or,
    Nat.one_shiftLeft, Nat.testBit_two_pow, Bool.or_eq_true]
  constructor
  · rintro ⟨hk, h | h⟩
    · exact .inr ⟨hk, h⟩
    · exact .inl (by omega)
  · rintro (rfl | ⟨hk, h⟩)
    · exact ⟨Int.natCast_nonneg i, .inr (Int.toNat_natCast i).symm⟩
    · exact ⟨hk, .inl h⟩

@[simp] theorem contains_union (s t : Plain) (k : Int) :
    (s.union t).contains k = true ↔ s.contains k = true ∨ t.contains k = true := by
  simp only [contains, union, Bool.and_eq_true, Nat.testBit_or, Bool.or_eq_true, and_or_left]

end BitSet.Plain

namespace Gen.Sheet

variable {A B : Sheet} {n : Nat} {V : Nat → Prop} {T J U : Label → Prop} {p l : Label}

/-- A value of the sheet has a type. -/
def HasTy (A : Sheet) (r : Ref) (t : Ty) : Prop :=
  A.chart.home r ≠ none ∧ A.chart.ty r = t

theorem Grows.hasTy (h : A.Grows n V T J U B) {r : Ref} {t : Ty} (hr : A.HasTy r t) : B.HasTy r t := by
  obtain ⟨hhome, hty⟩ := h.home r hr.1
  exact ⟨hhome ▸ hr.1, hty.trans hr.2⟩

theorem Grows.ne_current (h : A.Grows n V T J U B) (hl : l < A.chart.size) (hne : l ≠ A.chart.current)
    (hJ : ¬ J l) : l ≠ B.chart.current := by
  rintro rfl
  exact (h.current hl).elim hne hJ

/-- A block waits for edges: nothing stands in it, and nobody works on it. -/
structure Waiting (A : Sheet) (l : Label) : Prop where
  pending : A.Pending l
  ne : l ≠ A.chart.current

theorem Grows.waiting (h : A.Grows n V T J U B) (hB : B.Sound) (hl : A.Waiting l) (hT : ¬ T l)
    (hJ : ¬ J l) : B.Waiting l where
  pending := h.pending hB hl.pending hT hJ
  ne := h.ne_current hl.pending.lt hl.ne hJ

theorem edge_iff : A.Edge p l ↔ ∃ e, (A.chart.block p).exit = some e ∧ (l : Int) ∈ e.targets := by
  rw [Edge, Graph.Edge, Chart.succs]
  cases (A.chart.block p).exit with
  | none => simp
  | some e => simp

theorem lt_of_edge (hc : A.chart.Consistent) (h : A.Edge p l) : p < A.chart.size := by
  by_contra hle
  obtain ⟨e, he, -⟩ := edge_iff.1 h
  rw [hc.beyond p (not_lt.1 hle)] at he
  cases he

/-- A block that has ended stays as it is. -/
theorem Extends.edge (h : A.Extends B) (he : A.Edge p l) : B.Edge p l ∧ B.last p = A.last p := by
  obtain ⟨e, hexit, ht⟩ := edge_iff.1 he
  obtain ⟨hexit', hitems⟩ := h.exit p e hexit
  exact ⟨edge_iff.2 ⟨e, hexit', ht⟩, congrArg List.length hitems⟩

end Gen.Sheet

namespace Describe

open Gen (Sheet)
open Direct (Around Point)
variable {v : Nat} {y y' : Var}

/-! ## Sketches -/

/-- The variables of one sketch are still there in the other, and those that are in scope were so
before. -/
def Sketch.Carries (s s' : Sketch) : Prop :=
  ∀ (v : Nat) x, s.vars[v]? = some x → ∃ x', s'.vars[v]? = some x' ∧ x'.ty = x.ty ∧
    (s'.isClosed x' = false → s.isClosed x = false)

theorem Sketch.Carries.size_le {s s' : Sketch} (h : s.Carries s') : s.vars.size ≤ s'.vars.size := by
  by_contra hlt
  obtain ⟨x', hx', -⟩ := h _ _ (Array.getElem?_eq_getElem (not_le.1 hlt))
  exact absurd (Array.getElem?_eq_some_iff.1 hx').1 (lt_irrefl _)

theorem Sketch.Carries.of_lt {s s' : Sketch} (h : s.Carries s') {x' : Var} (hv : v < s.vars.size)
    (hx' : s'.vars[v]? = some x') :
    ∃ x, s.vars[v]? = some x ∧ x'.ty = x.ty ∧ (s'.isClosed x' = false → s.isClosed x = false) := by
  have hx := Array.getElem?_eq_getElem hv
  obtain ⟨x1, hx1, hty, hopen⟩ := h v _ hx
  cases hx1.symm.trans hx'
  exact ⟨_, hx, hty, hopen⟩

theorem Sketch.Carries.refl (s : Sketch) : s.Carries s :=
  fun _ y hy => ⟨y, hy, rfl, fun hopen => hopen⟩

theorem Sketch.Carries.trans {s t u : Sketch} (h : s.Carries t) (h' : t.Carries u) : s.Carries u := by
  intro v y hy
  obtain ⟨y', hy', hty, hopen⟩ := h v y hy
  obtain ⟨y'', hy'', hty', hopen'⟩ := h' v y' hy'
  exact ⟨y'', hy'', hty'.trans hty, fun h => hopen (hopen' h)⟩

/-- An edge to a block brings the first `n` variables in the values that the flow lists. -/
structure Brings (s : Sketch) (A : Sheet) (t : Label) (n : Nat) (f : EdgeFlow) : Prop where
  source : ∃ p : Label, f.source = p ∧ ¬ A.dead p ∧ A.Edge p t ∧ ∀ (v : Nat) x r, s.vars[v]? = some x →
    s.isClosed x = false → f.refs[v]? = some r → A.Knows p (A.last p) v r
  size : f.refs.size = n
  ty : ∀ (v : Nat) x r, s.vars[v]? = some x → f.refs[v]? = some r → A.HasTy r x.ty

/-- A block waits, and the flows list the edges to it. -/
structure Awaits (s : Sketch) (A : Sheet) (t : Label) (n : Nat) (fs : List EdgeFlow) : Prop
    extends A.Waiting t where
  size : n ≤ s.vars.size
  nodup : (fs.map EdgeFlow.source).Nodup
  all : ∀ p : Label, ¬ A.dead p → A.Edge p t → (p : Int) ∈ fs.map EdgeFlow.source
  each : ∀ f ∈ fs, Brings s A t n f

/-- The flows list the edges to a block that were drawn since an earlier sheet. -/
structure Arrives (s : Sketch) (A B : Sheet) (t : Label) (n : Nat) (fs : List EdgeFlow) : Prop where
  nodup : (fs.map EdgeFlow.source).Nodup
  since : ∀ f ∈ fs, ∃ p : Label, f.source = p ∧ (p = A.chart.current ∨ A.chart.size ≤ p) ∧ ¬ A.Edge p t
  all : ∀ p : Label, ¬ B.dead p → B.Edge p t → A.Edge p t ∨ (p : Int) ∈ fs.map EdgeFlow.source
  each : ∀ f ∈ fs, Brings s B t n f

variable {s s' t u : Sketch} {A B C : Sheet} {x : Label} {m m' n : Nat} {fs gs : List EdgeFlow}
  {f : EdgeFlow} {V V' W : Nat → Prop} {T T' J J' U U' : Label → Prop} {l : Loop}

theorem Brings.mono (h : Brings s A x n f) (hg : A.Grows m V T J U B) (hs : s.Carries s')
    (hn : n ≤ s.vars.size) : Brings s' B x n f := by
  have hlt : ∀ {v : Nat} {r}, f.refs[v]? = some r → v < s.vars.size := fun hr =>
    ((Array.getElem?_eq_some_iff.1 hr).1.trans_eq h.size).trans_le hn
  obtain ⟨p, hp, hdead, hedge, hknown⟩ := h.source
  obtain ⟨hedge', hlast⟩ := hg.ext.edge hedge
  refine ⟨⟨p, hp, ?_, hedge', fun v y r hy hopen hr => ?_⟩, h.size, fun v y r hy hr => ?_⟩
  · obtain ⟨e, hexit, -⟩ := Sheet.edge_iff.1 hedge
    exact fun hd => hdead (hg.ended p e hexit hd)
  · obtain ⟨y', hy', -, hopen'⟩ := hs.of_lt (hlt hr) hy
    rw [hlast]
    exact hg.ext.knows _ _ _ _ (hknown v y' r hy' (hopen' hopen) hr)
  · obtain ⟨y', hy', hty, -⟩ := hs.of_lt (hlt hr) hy
    rw [hty]
    exact hg.hasTy (h.ty v y' r hy' hr)

theorem arrives_nil (hg : A.Grows m V T J U B) (hx : x < A.chart.size) (hU : ¬ U x) :
    Arrives s A B x n [] where
  nodup := List.nodup_nil
  since _ hf := absurd hf List.not_mem_nil
  all p hp e := .inl (hg.edges p x hx hU hp e)
  each _ hf := absurd hf List.not_mem_nil

/-- The sources of edges that were there differ from those of edges that were drawn since. -/
theorem nodup_sources (hfs : (fs.map EdgeFlow.source).Nodup) (hgs : (gs.map EdgeFlow.source).Nodup)
    (hold : ∀ f ∈ fs, ∃ p : Label, f.source = p ∧ A.Edge p x)
    (hnew : ∀ f ∈ gs, ∃ p : Label, f.source = p ∧ ¬ A.Edge p x) :
    ((fs ++ gs).map EdgeFlow.source).Nodup := by
  rw [List.map_append]
  refine List.nodup_append.2 ⟨hfs, hgs, fun a ha b hb => ?_⟩
  rintro rfl
  obtain ⟨f, hf, hfa⟩ := List.mem_map.1 ha
  obtain ⟨g, hg, hga⟩ := List.mem_map.1 hb
  obtain ⟨p, hp, hedge⟩ := hold f hf
  obtain ⟨q, hq, hno⟩ := hnew g hg
  have hpq : (p : Int) = q := hp.symm.trans (hfa.trans (hga.symm.trans hq))
  exact hno (Int.ofNat_inj.1 hpq ▸ hedge)

theorem Arrives.trans (h : Arrives t A B x n fs) (h' : Arrives u B C x n gs)
    (hg : A.Grows m V T (fun _ => False) U B) (hg' : B.Grows m' V' T' J' U' C) (hs : t.Carries u)
    (hn : n ≤ t.vars.size) : Arrives u A C x n (fs ++ gs) where
  nodup := by
    refine nodup_sources (A := B) (x := x) h.nodup h'.nodup (fun f hf => ?_) fun f hf => ?_
    · obtain ⟨p, hp, -, hedge, -⟩ := (h.each f hf).source
      exact ⟨p, hp, hedge⟩
    · obtain ⟨p, hp, -, hno⟩ := h'.since f hf
      exact ⟨p, hp, hno⟩
  since f hf := by
    rcases List.mem_append.1 hf with hf | hf
    · exact h.since f hf
    obtain ⟨p, hp, hnew, hno⟩ := h'.since f hf
    refine ⟨p, hp, ?_, fun hedge => hno (hg.ext.edge hedge).1⟩
    by_cases hlt : p < A.chart.size
    · rcases hnew with rfl | hge
      · exact .inl ((hg.current hlt).resolve_right id)
      · exact absurd (hlt.trans_le hg.size) (not_lt.2 hge)
    · exact .inr (not_lt.1 hlt)
  all p hp e := by
    rw [List.map_append, List.mem_append]
    rcases h'.all p hp e with he | hmem
    · exact (h.all p (fun hd => hp (hg'.ext.dead p hd)) he).imp_right .inl
    · exact .inr (.inr hmem)
  each f hf := by
    rcases List.mem_append.1 hf with hf | hf
    · exact (h.each f hf).mono hg' hs hn
    · exact h'.each f hf

theorem Arrives.carry (h : Arrives s A B x n fs) (hs : s.Carries s') (hn : n ≤ s.vars.size) :
    Arrives s' A B x n fs :=
  { h with each := fun f hf => (h.each f hf).mono (Sheet.grows_self B) hs hn }

/-- More edges are drawn to a block that waits. -/
theorem Awaits.arrive (h : Awaits s A x n fs) (ha : Arrives s' A B x n gs) (hg : A.Grows m V T J U B)
    (hB : B.Sound) (hs : s.Carries s') (hT : ¬ T x) (hJ : ¬ J x) : Awaits s' B x n (fs ++ gs) where
  toWaiting := hg.waiting hB h.toWaiting hT hJ
  size := h.size.trans hs.size_le
  nodup := by
    refine nodup_sources (A := A) (x := x) h.nodup ha.nodup (fun f hf => ?_) fun f hf => ?_
    · obtain ⟨p, hp, -, hedge, -⟩ := (h.each f hf).source
      exact ⟨p, hp, hedge⟩
    · obtain ⟨p, hp, -, hno⟩ := ha.since f hf
      exact ⟨p, hp, hno⟩
  all p hp e := by
    rw [List.map_append, List.mem_append]
    exact (ha.all p hp e).imp_left fun he => h.all p (fun hd => hp (hg.ext.dead p hd)) he
  each f hf := by
    rcases List.mem_append.1 hf with hf | hf
    · exact (h.each f hf).mono hg hs h.size
    · exact ha.each f hf

/-- A block keeps waiting while nobody works on it. -/
theorem Awaits.mono (h : Awaits s A x n fs) (hg : A.Grows m V T J U B) (hB : B.Sound)
    (hs : s.Carries s') (hT : ¬ T x) (hJ : ¬ J x) (hU : ¬ U x) : Awaits s' B x n fs := by
  have := h.arrive (arrives_nil hg h.pending.lt hU) hg hB hs hT hJ
  rwa [List.append_nil] at this

/-! ### Loops -/

def Loop.blocks (l : Loop) : List BlockId :=
  [l.exit, l.next, l.head]

/-- The blocks of a loop are there: its end waits, so does the block of the next round, unless that starts
at the head, and the head keeps the variables. -/
structure Loop.Fits (s : Sketch) (A : Sheet) (l : Loop) : Prop where
  nonneg : ∀ b ∈ l.blocks, 0 ≤ b
  size : l.size ≤ s.vars.size
  exit : A.Waiting l.exit.toNat
  next : l.next ≠ l.head → A.Waiting l.next.toNat
  exit_ne_next : l.exit ≠ l.next
  exit_ne_head : l.exit ≠ l.head
  inside : l.head.toNat < A.chart.size
  inner : l.head.toNat ≠ Graph.entry
  alive : A.dead l.head.toNat → s.dead = true
  heads : ¬ A.dead l.head.toNat → A.Heads l.head.toNat l.phis
  length : l.phis.length ≤ l.size
  phis : ∀ (v : Nat) r, l.phis[v]? = some r → r ≠ noRef →
    ∃ x, s.vars[v]? = some x ∧ s.isClosed x = false ∧ A.HasTy r x.ty

section

variable (h : l.Fits s A)
include h

theorem Loop.Fits.exit_cast : (l.exit.toNat : Int) = l.exit :=
  Int.toNat_of_nonneg (h.nonneg _ List.mem_cons_self)

theorem Loop.Fits.next_cast : (l.next.toNat : Int) = l.next :=
  Int.toNat_of_nonneg (h.nonneg _ (List.mem_cons_of_mem _ List.mem_cons_self))

theorem Loop.Fits.head_cast : (l.head.toNat : Int) = l.head :=
  Int.toNat_of_nonneg (h.nonneg _ (by simp [blocks]))

theorem Loop.Fits.exit_mem : ((l.exit.toNat : Label) : Int) ∈ l.blocks := by
  rw [h.exit_cast]
  exact List.mem_cons_self

theorem Loop.Fits.next_mem : ((l.next.toNat : Label) : Int) ∈ l.blocks := by
  rw [h.next_cast]
  exact List.mem_cons_of_mem _ List.mem_cons_self

theorem Loop.Fits.head_mem : ((l.head.toNat : Label) : Int) ∈ l.blocks := by
  rw [h.head_cast]
  exact List.mem_cons_of_mem _ (List.mem_cons_of_mem _ List.mem_cons_self)

theorem Loop.Fits.lt : ∀ b ∈ l.blocks, b < A.chart.size := by
  have hexit := Int.ofNat_lt.2 h.exit.pending.lt
  have hhead := Int.ofNat_lt.2 h.inside
  rw [h.exit_cast] at hexit
  rw [h.head_cast] at hhead
  simp only [blocks, List.mem_cons, List.not_mem_nil, or_false, forall_eq_or_imp, forall_eq]
  refine ⟨hexit, ?_, hhead⟩
  by_cases heq : l.next = l.head
  · exact heq ▸ hhead
  · have hnext := Int.ofNat_lt.2 (h.next heq).pending.lt
    rwa [h.next_cast] at hnext

end

/-- The values at the head of a loop stay known there. -/
theorem heads_mono {h : Label} {phis : List Ref} (hh : A.Heads h phis) (hg : A.Grows m V T J U B)
    (hlt : h < A.chart.size) (hJ : ¬ J h) : B.Heads h phis where
  known v r := by
    rw [← hh.known]
    exact ⟨hg.points h 0 v r hlt hJ (Nat.zero_le _), hg.ext.known h 0 v r⟩
  values := (hg.phis h hlt hJ).trans hh.values

/-- The blocks of a loop stay while nobody enters them. -/
theorem Loop.Fits.mono (h : l.Fits s A) (hg : A.Grows m V T J U B) (hB : B.Sound) (hs : s.Carries s')
    (hT : ∀ y, T y → y = A.chart.current) (hJ : ∀ y : Label, (y : Int) ∈ l.blocks → ¬ J y)
    (hdead : A.dead l.head.toNat → s'.dead = true)
    (hopen : ∀ (v : Nat) r, l.phis[v]? = some r → r ≠ noRef →
      ∃ x, s'.vars[v]? = some x ∧ s'.isClosed x = false) : l.Fits s' B where
  nonneg := h.nonneg
  size := h.size.trans hs.size_le
  exit := hg.waiting hB h.exit (fun hTy => h.exit.ne (hT _ hTy)) (hJ _ h.exit_mem)
  next hne := hg.waiting hB (h.next hne) (fun hTy => (h.next hne).ne (hT _ hTy)) (hJ _ h.next_mem)
  exit_ne_next := h.exit_ne_next
  exit_ne_head := h.exit_ne_head
  inside := h.inside.trans_le hg.size
  inner := h.inner
  alive hd := hdead (hg.alive _ h.inside (hJ _ h.head_mem) hd)
  heads hd := heads_mono (h.heads fun hd' => hd (hg.ext.dead _ hd')) hg h.inside (hJ _ h.head_mem)
  length := h.length
  phis v r hr hne := by
    obtain ⟨x, hx, -, hty⟩ := h.phis v r hr hne
    obtain ⟨x', hx', hopen'⟩ := hopen v r hr hne
    obtain ⟨x1, hx1, hty1, -⟩ := hs v x hx
    cases hx'.symm.trans hx1
    exact ⟨x', hx', hopen', hty1 ▸ hg.hasTy hty⟩

/-! ## Sketches that go with sheets -/

/-- The sketch goes with the sheet that its generator draws. -/
structure Drawn (s : Sketch) (A : Sheet) : Prop where
  shows : s.gen.Shows A
  sig : A.chart.sig = s.sig
  result : s.sig.result.isVoid = true ∨ s.sig.result.kind ≠ .invalid
  ty : ∀ (v : Nat) x, s.vars[v]? = some x → A.HasTy x.ref x.ty ∧ x.ty.kind ≠ .invalid
  scope : ∀ (v : Nat) x, s.vars[v]? = some x → x.scope < s.nextScope
  scopes : ∀ k ∈ 0 :: s.scopes, k < s.nextScope
  loops : ∀ l ∈ s.loops, l.Fits s A
  apart : s.loops.Pairwise fun l l' => ∀ b ∈ l.blocks, b ∉ l'.blocks

/-- The current block has not ended, and the variables that are in scope and among those in `p` are kept
in their values. -/
structure Ready (s : Sketch) (A : Sheet) (p : Nat → Prop) : Prop where
  exit : (A.chart.block A.chart.current).exit = none
  dead : A.dead A.chart.current ↔ s.dead = true
  env : s.dead = false → ∀ (v : Nat) x, p v → s.vars[v]? = some x → s.isClosed x = false →
    A.Knows A.chart.current A.top v x.ref

theorem Ready.mono {p q : Nat → Prop} (h : Ready s A p) (hpq : ∀ v, q v → p v) : Ready s A q :=
  { h with env := fun hd v x hv => h.env hd v x (hpq v hv) }

abbrev AllReady (s : Sketch) (A : Sheet) : Prop :=
  Ready s A fun _ => True

/-- Where the next item comes; nowhere if control does not get there. -/
def point (s : Sketch) (A : Sheet) : Point :=
  if s.dead then none else some (A.chart.current, A.top)

/-- Where control goes when it leaves the innermost loop or goes to its next round. -/
def Sketch.around (s : Sketch) : Option Around :=
  s.loops.head?.map fun l => ⟨l.exit.toNat, l.next.toNat⟩

/-- The blocks to which control may go from inside the innermost loop. -/
def Sketch.Targets (s : Sketch) (x : Label) : Prop :=
  ∃ l ∈ s.loops.head?, (x : Int) = l.exit ∨ (x : Int) = l.next

/-! ## Describing a part -/

/-- The variables in a set are assigned, which the innermost frame tells. -/
def FramesGrow (V : Nat → Prop) (fs fs' : List BitSet.Plain) : Prop :=
  match fs with
  | [] => fs' = []
  | f :: fs => ∃ f', fs' = f' :: fs ∧
      ∀ v : Nat, f'.contains v = true ↔ f.contains v = true ∨ V v

theorem FramesGrow.refl (fs : List BitSet.Plain) : FramesGrow (fun _ => False) fs fs := by
  cases fs with
  | nil => exact rfl
  | cons f fs => exact ⟨f, rfl, fun v => by simp⟩

theorem FramesGrow.trans {fs fs' fs'' : List BitSet.Plain} (h : FramesGrow V fs fs')
    (h' : FramesGrow V' fs' fs'') : FramesGrow (fun v => V v ∨ V' v) fs fs'' := by
  cases fs with
  | nil =>
    obtain rfl : fs' = [] := h
    exact h'
  | cons f fs =>
    obtain ⟨f', rfl, hf⟩ := h
    obtain ⟨f'', rfl, hf'⟩ := h'
    exact ⟨f'', rfl, fun v => by rw [hf', hf, or_assoc]⟩

/-- The second sketch comes of the first: its variables are still there, and new ones were made in the
innermost scope or in scopes that are closed. -/
structure Drifts (s s' : Sketch) : Prop where
  id : s'.id = s.id
  sig : s'.sig = s.sig
  profile : s'.profileError = s.profileError
  finished : s'.finished = s.finished
  scopes : s'.scopes = s.scopes
  next : s.nextScope ≤ s'.nextScope
  closed : ∀ k < s.nextScope, s'.closed.contains k = s.closed.contains k
  vars : ∀ (v : Nat) x, s.vars[v]? = some x →
    ∃ x', s'.vars[v]? = some x' ∧ x'.ty = x.ty ∧ x'.scope = x.scope
  made : ∀ (v : Nat) x', s.vars.size ≤ v → s'.vars[v]? = some x' →
    x'.scope = s.scopes.headD 0 ∨ s'.isClosed x' = true

/-- The second sketch comes of the first by describing a part that assigns to the variables in `V`. -/
structure Evolves (V : Nat → Prop) (s s' : Sketch) : Prop extends Drifts s s' where
  refs : ∀ (v : Nat) x x', ¬ V v → s.vars[v]? = some x → s'.vars[v]? = some x' → x'.ref = x.ref
  frames : FramesGrow V s.frames s'.frames
  quiet : s.dead = true → s'.dead = true

section

variable (h : Drifts s s')
include h

theorem Drifts.isClosed (hy : y.scope < s.nextScope) (hscope : y'.scope = y.scope) :
    s'.isClosed y' = s.isClosed y := by
  rw [Sketch.isClosed, Sketch.isClosed, hscope]
  exact h.closed _ hy

theorem Drifts.var (hd : Drawn s A) (hy : s.vars[v]? = some y) : ∃ y', s'.vars[v]? = some y' ∧ y'.ty = y.ty ∧
      s'.isClosed y' = s.isClosed y := by
  obtain ⟨y', hy', hty, hscope⟩ := h.vars v y hy
  exact ⟨y', hy', hty, h.isClosed (hd.scope v y hy) hscope⟩

theorem Drifts.carries (hd : Drawn s A) : s.Carries s' := by
  intro v y hy
  obtain ⟨y', hy', hty, hclosed⟩ := h.var hd hy
  exact ⟨y', hy', hty, fun hopen => hclosed ▸ hopen⟩

end

theorem Drifts.trans (h : Drifts s t) (h' : Drifts t u) (ht : Drawn t B) : Drifts s u where
  id := h'.id.trans h.id
  sig := h'.sig.trans h.sig
  profile := h'.profile.trans h.profile
  finished := h'.finished.trans h.finished
  scopes := h'.scopes.trans h.scopes
  next := h.next.trans h'.next
  closed k hk := (h'.closed k (hk.trans_le h.next)).trans (h.closed k hk)
  vars v y hy := by
    obtain ⟨y', hy', hty, hscope⟩ := h.vars v y hy
    obtain ⟨y'', hy'', hty', hscope'⟩ := h'.vars v y' hy'
    exact ⟨y'', hy'', hty'.trans hty, hscope'.trans hscope⟩
  made v y'' hv hy'' := by
    by_cases hlt : v < t.vars.size
    · have hy' := Array.getElem?_eq_getElem hlt
      obtain ⟨y1, hy1, -, hscope⟩ := h'.vars v _ hy'
      cases hy1.symm.trans hy''
      rw [h'.isClosed (ht.scope v _ hy') hscope, hscope]
      exact h.made v _ hv hy'
    · rw [← h.scopes]
      exact h'.made v y'' (not_lt.1 hlt) hy''

theorem Evolves.trans (h : Evolves V s t) (h' : Evolves V' t u) (ht : Drawn t B) :
    Evolves (fun v => V v ∨ V' v) s u where
  toDrifts := h.toDrifts.trans h'.toDrifts ht
  refs v y y'' hv hy hy'' := by
    obtain ⟨y', hy', -⟩ := h.vars v y hy
    exact (h'.refs v y' y'' (fun hV => hv (.inr hV)) hy' hy'').trans
      (h.refs v y y' (fun hV => hv (.inl hV)) hy hy')
  frames := h.frames.trans h'.frames
  quiet hd := h'.quiet (h.quiet hd)

/-! ### Edges that leave loops -/

/-- The loop with more edges to its end and to its next round. -/
def Loop.grown (l : Loop) (breaks continues : List EdgeFlow) : Loop :=
  { l with breaks := l.breaks ++ breaks, continues := l.continues ++ continues }

theorem Loop.grown_nil (l : Loop) : l.grown [] [] = l := by
  simp [grown]

theorem Loop.grown_grown (l : Loop) (b b' c c' : List EdgeFlow) :
    (l.grown b c).grown b' c' = l.grown (b ++ b') (c ++ c') := by
  simp [grown]

theorem Loop.Fits.grown (h : l.Fits s A) (b c : List EdgeFlow) : (l.grown b c).Fits s A :=
  ⟨h.nonneg, h.size, h.exit, h.next, h.exit_ne_next, h.exit_ne_head, h.inside, h.inner, h.alive, h.heads,
    h.length, h.phis⟩

/-- An edge brings the variables that are not in `V` in the values that they had in a sketch. -/
def Kept (V : Nat → Prop) (s : Sketch) (A : Sheet) (f : EdgeFlow) : Prop :=
  ∀ p : Label, f.source = p → ∀ (v : Nat) x, s.vars[v]? = some x → s.isClosed x = false → ¬ V v →
    A.Knows p (A.last p) v x.ref

/-- The edges that were drawn to the end of a loop and to its next round. -/
structure Fed (V : Nat → Prop) (s : Sketch) (A : Sheet) (s' : Sketch) (A' : Sheet) (l : Loop)
    (breaks continues : List EdgeFlow) : Prop where
  exit : Arrives s' A A' l.exit.toNat l.size breaks
  next : l.next ≠ l.head → Arrives s' A A' l.next.toNat l.size continues
  no_next : l.next = l.head → continues = []
  live : s.dead = true → breaks = [] ∧ continues = []
  kept : ∀ f ∈ continues, Kept V s A' f

/-- The edges that were drawn out of a part of the innermost loop are noted. -/
structure Feeds (V : Nat → Prop) (s : Sketch) (A : Sheet) (s' : Sketch) (A' : Sheet) : Prop where
  outside : s.loops = [] → s'.loops = []
  inside : ∀ l ls, s.loops = l :: ls → ∃ breaks continues,
    s'.loops = l.grown breaks continues :: ls ∧ Fed V s A s' A' l breaks continues

theorem Feeds.around (h : Feeds V s A s' B) : s'.around = s.around := by
  cases hs : s.loops with
  | nil => rw [Sketch.around, Sketch.around, hs, h.outside hs]
  | cons l ls =>
    obtain ⟨breaks, continues, hs', -⟩ := h.inside l ls hs
    rw [Sketch.around, Sketch.around, hs, hs']
    rfl

theorem Feeds.targets (h : Feeds V s A s' B) (x : Label) : s'.Targets x ↔ s.Targets x := by
  cases hs : s.loops with
  | nil => rw [Sketch.Targets, Sketch.Targets, hs, h.outside hs]
  | cons l ls =>
    obtain ⟨breaks, continues, hs', -⟩ := h.inside l ls hs
    rw [Sketch.Targets, Sketch.Targets, hs, hs']
    simp [Loop.grown]

/-- No edge was drawn out of a part. -/
theorem feeds_none (hd : Drawn s A) (hg : A.Grows m V T J U B) (hloops : s'.loops = s.loops)
    (hU : ∀ l ∈ s.loops, ∀ y : Label, (y : Int) ∈ l.blocks → ¬ U y) : Feeds W s A s' B where
  outside hnil := hloops.trans hnil
  inside l ls hl := by
    have hmem : l ∈ s.loops := by simp [hl]
    have hfits := hd.loops l hmem
    refine ⟨[], [], by rw [l.grown_nil, hloops, hl], arrives_nil hg hfits.exit.pending.lt ?_, fun hne =>
      arrives_nil hg (hfits.next hne).pending.lt ?_, fun _ => rfl, fun _ => ⟨rfl, rfl⟩,
      nofun⟩
    · exact hU l hmem _ hfits.exit_mem
    · exact hU l hmem _ hfits.next_mem

theorem Fed.kept_mono {b c : List EdgeFlow} (h : Fed V s A t B l b c) (hext : B.Extends C)
    (hf : f ∈ c) : Kept V s C f := by
  intro p hp v y hy hopen hv
  have hne : l.next ≠ l.head := fun heq => by
    rw [h.no_next heq] at hf
    cases hf
  obtain ⟨q, hq, -, hedge, -⟩ := ((h.next hne).each f hf).source
  obtain rfl := Int.ofNat_inj.1 (hp.symm.trans hq)
  rw [(hext.edge hedge).2]
  exact hext.knows _ _ _ _ (h.kept f hf p hp v y hy hopen hv)

/-- What comes after a part draws no edges out of it. -/
theorem Feeds.mono (h : Feeds W s A t B) (hg : A.Grows m V T (fun _ => False) U B)
    (hg' : B.Grows m' V' T' J' U' C) (ht : Drawn t B) (hs : t.Carries u) (hloops : u.loops = t.loops)
    (hU : ∀ l ∈ t.loops, ∀ y : Label, (y : Int) ∈ l.blocks → ¬ U' y) : Feeds W s A u C where
  outside hnil := hloops.trans (h.outside hnil)
  inside l ls hl := by
    obtain ⟨b, c, hl', hfed⟩ := h.inside l ls hl
    have hmem : l.grown b c ∈ t.loops := by simp [hl']
    have hfits := ht.loops (l.grown b c) hmem
    have harrive : ∀ {y : Label} {fs : List EdgeFlow}, Arrives t A B y l.size fs → y < B.chart.size →
        (y : Int) ∈ l.blocks → Arrives u A C y l.size fs := by
      intro y fs ha hlt hy
      have := ha.trans (arrives_nil hg' hlt (hU _ hmem y hy)) hg hg' hs hfits.size
      rwa [List.append_nil] at this
    exact ⟨b, c, hloops.trans hl', harrive hfed.exit hfits.exit.pending.lt hfits.exit_mem,
      fun hne => harrive (hfed.next hne) (hfits.next hne).pending.lt hfits.next_mem, hfed.no_next,
      hfed.live, fun f hf => hfed.kept_mono hg'.ext hf⟩

/-- Two parts one after the other. Variables that are not in `W` have the same values before both. -/
theorem Feeds.trans (h : Feeds V s A t B) (h' : Feeds V' t B u C)
    {N N' : Nat → Prop} (hg : A.Grows m N T (fun _ => False) U B)
    (hg' : B.Grows m' N' T' J' U' C) (ht : Drawn t B) (hs : t.Carries u)
    (hdead : s.dead = true → t.dead = true)
    (hW : ∀ (v : Nat) y, s.vars[v]? = some y → s.isClosed y = false → ¬ W v → ¬ V v ∧ ¬ V' v ∧
      ∃ y', t.vars[v]? = some y' ∧ t.isClosed y' = false ∧ y'.ref = y.ref) : Feeds W s A u C where
  outside hnil := h'.outside (h.outside hnil)
  inside l ls hl := by
    obtain ⟨b, c, hloops, hfed⟩ := h.inside l ls hl
    obtain ⟨b', c', hloops', hfed'⟩ := h'.inside _ ls hloops
    have hfits := ht.loops (l.grown b c) (by simp [hloops])
    have hsize : l.size ≤ t.vars.size := hfits.size
    refine ⟨b ++ b', c ++ c', hloops'.trans (by rw [Loop.grown_grown]),
      hfed.exit.trans hfed'.exit hg hg' hs hsize,
      fun hne => (hfed.next hne).trans (hfed'.next hne) hg hg' hs hsize, fun heq => ?_, fun hd => ?_,
      fun f hf => ?_⟩
    · rw [hfed.no_next heq, hfed'.no_next heq]
      rfl
    · obtain ⟨rfl, rfl⟩ := hfed.live hd
      obtain ⟨rfl, rfl⟩ := hfed'.live (hdead hd)
      exact ⟨rfl, rfl⟩
    · intro p hp v y hy hopen hv
      rcases List.mem_append.1 hf with hf | hf
      · exact hfed.kept_mono hg'.ext hf p hp v y hy hopen (hW v y hy hopen hv).1
      · obtain ⟨-, hv', y', hy', hopen', href⟩ := hW v y hy hopen hv
        rw [← href]
        exact hfed'.kept f hf p hp v y' hy' hopen' hv'

/-! ### Progress -/

/-- What describing a part that assigns to the variables in `V` makes of a sketch and its sheet, up to
what is known of the variables in the end. -/
structure Advance (V : Nat → Prop) (s : Sketch) (A : Sheet) (s' : Sketch) (A' : Sheet) : Prop where
  drawn : Drawn s' A'
  grows : A.Grows s.vars.size V (· = A.chart.current) (fun _ => False) s.Targets A'
  idle : ∀ l, A'.Idle l → A.Idle l
  evolves : Evolves V s s'
  feeds : Feeds V s A s' A'

/-- What describing a part that assigns to the variables in `V` makes of a sketch and its sheet. -/
structure Progress (V : Nat → Prop) (s : Sketch) (A : Sheet) (s' : Sketch) (A' : Sheet) : Prop
    extends Advance V s A s' A' where
  ready : Ready s' A' fun _ => True

/-- Two parts are described one after the other. -/
theorem Advance.trans (h : Advance V s A t B) (h' : Advance V' t B u C)
    (hs : Drawn s A) : Advance (fun v => V v ∨ V' v) s A u C where
  drawn := h'.drawn
  grows := by
    refine (h.grows.mono (fun v _ hv => .inl hv) (fun l _ hl => .inl hl) (fun _ _ hl => hl)
      fun _ _ hl => hl).trans h'.grows (h.evolves.carries hs).size_le (fun v _ hv => .inr hv)
        (fun l hl heq => ?_) (fun _ _ hl => hl) fun x _ hx => (h.feeds.targets x).1 hx
    exact (h.grows.current (heq ▸ hl)).imp heq.trans id
  idle l hl := h.idle l (h'.idle l hl)
  evolves := h.evolves.trans h'.evolves h.drawn
  feeds := by
    refine h.feeds.trans h'.feeds h.grows h'.grows h.drawn (h'.evolves.carries h.drawn)
      h.evolves.quiet fun v y hy hopen hv => ?_
    obtain ⟨y', hy', -, hclosed⟩ := h.evolves.var hs hy
    exact ⟨fun hV => hv (.inl hV), fun hV => hv (.inr hV), y', hy', hclosed.trans hopen, h.evolves.refs v y y' (fun hV => hv (.inl hV)) hy hy'⟩

theorem Progress.trans (h : Progress V s A t B) (h' : Progress V' t B u C)
    (hs : Drawn s A) : Progress (fun v => V v ∨ V' v) s A u C where
  toAdvance := h.toAdvance.trans h'.toAdvance hs
  ready := h'.ready

theorem Progress.congr (h : Progress V s A s' B) (hV : ∀ v, V v ↔ V' v) : Progress V' s A s' B := by
  obtain rfl : V = V' := funext fun v => propext (hV v)
  exact h

/-! ## Steps of a sketch -/

/-- The two sketches differ in the values of variables, or in what has nothing to do with scopes and
loops. -/
structure Sketch.Alike (s s' : Sketch) : Prop where
  id : s'.id = s.id
  sig : s'.sig = s.sig
  profile : s'.profileError = s.profileError
  finished : s'.finished = s.finished
  scopes : s'.scopes = s.scopes
  next : s'.nextScope = s.nextScope
  closed : s'.closed = s.closed
  loops : s'.loops = s.loops
  vars : ∀ (v : Nat) x, s.vars[v]? = some x →
    ∃ x', s'.vars[v]? = some x' ∧ x'.ty = x.ty ∧ x'.scope = x.scope

theorem Sketch.Alike.isClosed (h : s.Alike s') (hscope : y'.scope = y.scope) :
    s'.isClosed y' = s.isClosed y := by
  rw [Sketch.isClosed, Sketch.isClosed, h.closed, hscope]

theorem Sketch.Alike.carries (h : s.Alike s') : s.Carries s' := by
  intro v y hy
  obtain ⟨y', hy', hty, hscope⟩ := h.vars v y hy
  exact ⟨y', hy', hty, fun hopen => (h.isClosed hscope).symm.trans hopen⟩

theorem Sketch.Alike.drifts (h : s.Alike s')
    (hmade : ∀ (v : Nat) x', s.vars.size ≤ v → s'.vars[v]? = some x' → x'.scope = s.scopes.headD 0) :
    Drifts s s' where
  id := h.id
  sig := h.sig
  profile := h.profile
  finished := h.finished
  scopes := h.scopes
  next := h.next.ge
  closed _ _ := by rw [h.closed]
  vars := h.vars
  made v y hv hy := .inl (hmade v y hv hy)

/-- A step on the sheet that leaves the blocks of the loops alone. -/
theorem Drawn.mono (hd : Drawn s A) (hg : A.Grows m V T J U B) (hshows : s'.gen.Shows B)
    (hs : s.Alike s') (hT : ∀ y, T y → y = A.chart.current)
    (hJ : ∀ l ∈ s.loops, ∀ y : Label, (y : Int) ∈ l.blocks → ¬ J y)
    (hdead : ∀ l ∈ s.loops, A.dead l.head.toNat → s'.dead = true)
    (hvars : ∀ (v : Nat) x, s'.vars[v]? = some x →
      B.HasTy x.ref x.ty ∧ x.ty.kind ≠ .invalid ∧ x.scope < s.nextScope) : Drawn s' B where
  shows := hshows
  sig := hg.sig.trans (hd.sig.trans hs.sig.symm)
  result := hs.sig ▸ hd.result
  ty v x hx := ⟨(hvars v x hx).1, (hvars v x hx).2.1⟩
  scope v x hx := hs.next ▸ (hvars v x hx).2.2
  scopes := hs.scopes ▸ hs.next ▸ hd.scopes
  loops l hl := by
    rw [hs.loops] at hl
    have hfits := hd.loops l hl
    refine hfits.mono hg hshows.sound hs.carries hT (hJ l hl) (hdead l hl) fun v r hr hne => ?_
    obtain ⟨x, hx, hopen, -⟩ := hfits.phis v r hr hne
    obtain ⟨x', hx', -, hscope⟩ := hs.vars v x hx
    exact ⟨x', hx', (hs.isClosed hscope).trans hopen⟩
  apart := hs.loops ▸ hd.apart

/-- An item is added to the current block. -/
theorem progress_push {it : Gen.Item} {c : Gen.Chart} (hd : Drawn s A) (hr : AllReady s A)
    (hc : A.chart.Adds it c) (hshows : s'.gen.Shows (A.push it c)) (hev : Evolves V s s')
    (hs : s.Alike s') (hdead : s'.dead = s.dead)
    (hV : ∀ v x, it = .note v x → v < s.vars.size → V v)
    (hvars : ∀ (v : Nat) x, s'.vars[v]? = some x →
      (A.push it c).HasTy x.ref x.ty ∧ x.ty.kind ≠ .invalid ∧ x.scope < s.nextScope)
    (henv : s.dead = false → ∀ (v : Nat) x, s'.vars[v]? = some x → s'.isClosed x = false →
      A.strict → A.after it v x.ref) : Progress V s A s' (A.push it c) := by
  have hg : A.Grows s.vars.size V (· = A.chart.current) (fun _ => False) (fun _ => False)
      (A.push it c) := Sheet.grows_push hc hr.exit hV
  have hlive : ∀ l ∈ s.loops, A.dead l.head.toNat → s'.dead = true := fun l hl hhead =>
    hdead.trans ((hd.loops l hl).alive hhead)
  refine ⟨⟨hd.mono hg hshows hs (fun _ => id) (fun _ _ _ _ => id) hlive hvars, ?_,
    fun l => Sheet.idle_push hc, hev, feeds_none hd hg hs.loops fun _ _ _ _ => id⟩, ⟨?_, ?_, ?_⟩⟩
  · exact hg.mono (fun _ _ h => h) (fun _ _ h => .inl h) (fun _ _ h => h) fun _ _ h => absurd h id
  · show (c.block c.current).exit = none
    rw [hc.current, hc.exit]
    exact hr.exit
  · show A.dead c.current ↔ _
    rw [hc.current, hdead]
    exact hr.dead
  · intro hlive v x _ hx hopen
    show (A.push it c).Knows c.current ((A.push it c).last c.current) v x.ref
    rw [hc.current, Sheet.push_last]
    exact fun hs => .inr ⟨rfl, rfl, henv (hdead ▸ hlive) v x hx hopen hs⟩

end Describe

end Codesmith
