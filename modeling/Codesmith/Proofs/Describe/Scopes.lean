import Codesmith.Proofs.Describe.Joins

/-!
# Scopes and frames

A part of a construct is described in a scope of its own: what it makes is out of scope afterwards, and
nothing else is. A frame tells the variables that the parts of a construct assign to.
-/

namespace Codesmith.Describe

open Gen (Sheet)
open Direct (Node)

variable {s₀ s s' t : Sketch} {A A' B : Sheet} {V V' : Nat → Prop} {p : Nat → Prop} {nodes : List Node}
variable {x : Var}

/-! ## Scopes -/

def Sketch.inner (s : Sketch) : Sketch :=
  { s with scopes := s.nextScope :: s.scopes, nextScope := s.nextScope + 1 }

/-- The sketch after the innermost scope, which was opened in another sketch, is closed. -/
def Sketch.outer (t s : Sketch) : Sketch :=
  { t with scopes := s.scopes, closed := t.closed.add s.nextScope }

theorem openScope_run (s : Sketch) : openScope s = .ok ((), s.inner) :=
  rfl

theorem closeScope_run (h : t.scopes = s.inner.scopes) : closeScope t = .ok ((), t.outer s) := by
  obtain ⟨⟩ := t
  cases h
  rfl

theorem outer_isClosed : (t.outer s).isClosed x = true ↔ x.scope = s.nextScope ∨ t.isClosed x = true := by
  rw [Sketch.isClosed, Sketch.outer, BitSet.Plain.contains_add, Int.ofNat_inj]
  rfl

theorem Drawn.inner (h : Drawn s A) : Drawn s.inner A :=
  { h with
    scope := fun v x hx => (h.scope v x hx).trans (Nat.lt_succ_self _)
    scopes := fun k hk => by
      show k < s.nextScope + 1
      rcases List.mem_cons.1 hk with rfl | hk
      · exact Nat.succ_pos _
      · rcases List.mem_cons.1 hk with rfl | hk
        · exact Nat.lt_succ_self _
        · exact (h.scopes k (List.mem_cons_of_mem _ hk)).trans (Nat.lt_succ_self _)
    loops := fun l hl => { h.loops l hl with } }

theorem Ready.inner (h : Ready s A p) : Ready s.inner A p :=
  { h with }

theorem closed_of_made (h : Drifts s.inner t) {v : Nat} (hv : s.vars.size ≤ v) (hx : t.vars[v]? = some x) :
    (t.outer s).isClosed x = true :=
  outer_isClosed.2 (h.made v x hv hx)

theorem Drifts.outer (h : Drifts s.inner t) : Drifts s (t.outer s) where
  id := h.id
  sig := h.sig
  profile := h.profile
  finished := h.finished
  scopes := rfl
  next := (Nat.le_succ _).trans h.next
  closed k hk := by
    have hk' : t.closed.contains k = s.closed.contains k := h.closed k (hk.trans (Nat.lt_succ_self _))
    rw [← hk', Bool.eq_iff_iff, Sketch.outer, BitSet.Plain.contains_add, Int.ofNat_inj]
    exact ⟨fun h => h.resolve_left hk.ne, .inr⟩
  vars := h.vars
  made v x hv hx := .inr (closed_of_made h hv hx)

theorem carries_outer (t s : Sketch) : t.Carries (t.outer s) := by
  intro v x hx
  refine ⟨x, hx, rfl, fun hopen => ?_⟩
  by_contra hc
  have := outer_isClosed (s := s).2 (.inr (by simpa using hc))
  rw [hopen] at this
  cases this

/-- A part is described in a scope of its own. What is in scope afterwards has to be known. -/
theorem progress_scope (hd : Drawn s A) (ha : Advance V s.inner A t B) (hr : Ready t B p)
    (hp : ∀ (v : Nat) x, t.vars[v]? = some x → t.isClosed x = false → x.scope ≠ s.nextScope → p v) :
    Progress V s A (t.outer s) B := by
  have hdrifts := ha.evolves.toDrifts
  -- The variables that the heads of loops keep are older than the scope.
  have hphis : ∀ l ∈ t.loops, ∀ (v : Nat) r, l.phis[v]? = some r → r ≠ noRef →
      ∃ x, t.vars[v]? = some x ∧ (t.outer s).isClosed x = false ∧ B.HasTy r x.ty := by
    intro l hl v r hr hne
    have hold : ∃ l0 ∈ s.loops, l.phis = l0.phis := by
      cases hs : s.loops with
      | nil =>
        rw [ha.feeds.outside hs] at hl
        cases hl
      | cons l0 ls =>
        obtain ⟨b, c, hloops, -⟩ := ha.feeds.inside l0 ls hs
        rw [hloops] at hl
        rcases List.mem_cons.1 hl with rfl | hl
        · exact ⟨l0, List.mem_cons_self, rfl⟩
        · exact ⟨l, List.mem_cons_of_mem _ hl, rfl⟩
    obtain ⟨l0, hl0, heq⟩ := hold
    obtain ⟨x0, hx0, -⟩ := (hd.loops l0 hl0).phis v r (heq ▸ hr) hne
    obtain ⟨x, hx, hopen, hty⟩ := (ha.drawn.loops l hl).phis v r hr hne
    obtain ⟨x', hx', -, hscope⟩ := hdrifts.vars v x0 hx0
    cases hx.symm.trans hx'
    refine ⟨x, hx, ?_, hty⟩
    by_contra hc
    rcases outer_isClosed.1 (by simpa using hc) with heq | hclosed
    · exact absurd (hscope.symm.trans heq) (hd.scope v x0 hx0).ne
    · rw [hopen] at hclosed
      cases hclosed
  refine ⟨⟨?_, ha.grows, ha.idle, ⟨hdrifts.outer, ha.evolves.refs, ha.evolves.frames, ha.evolves.quiet⟩,
    ?_⟩, ⟨hr.exit, hr.dead, fun hlive v x _ hx hopen => ?_⟩⟩
  · exact { ha.drawn with
      scopes := fun k hk => (hd.scopes k hk).trans_le ((Nat.le_succ _).trans hdrifts.next)
      loops := fun l hl => { ha.drawn.loops l hl with phis := hphis l hl } }
  · have hfeeds := ha.feeds.mono ha.grows (Sheet.grows_self B) ha.drawn (carries_outer t s) rfl
      fun _ _ _ _ => id
    refine ⟨hfeeds.outside, fun l ls hl => ?_⟩
    obtain ⟨b, c, hloops, hfed⟩ := hfeeds.inside l ls hl
    exact ⟨b, c, hloops, { hfed with }⟩
  · have hnot := fun h => (Bool.eq_false_iff.1 hopen) (outer_isClosed.2 h)
    have hopen' : t.isClosed x = false := by simpa using fun hc => hnot (.inr hc)
    exact hr.env hlive v x (hp v x hx hopen' fun hc => hnot (.inl hc)) hx hopen'

/-! ## Parts -/

/-- Everything that was made since an earlier sketch is out of scope. -/
def Closes (s t : Sketch) : Prop :=
  ∀ (v : Nat) x, s.vars.size ≤ v → t.vars[v]? = some x → t.isClosed x = true

theorem closes_self (s : Sketch) : Closes s s :=
  fun _ _ hv hx => absurd (Array.getElem?_eq_some_iff.1 hx).1 (not_lt.2 hv)

theorem draws_nil (hd : Drawn s A) (hr : AllReady s A) : Draws [] s A s A where
  progress := (Progress.refl hd hr).congr fun v => by simp [Direct.assignedAll]
  laid := rfl
  made v hv hlt := absurd hlt (not_lt.2 hv)
  calm _ := rfl

theorem Draws.scoped {u : Unit} (h : Draws nodes s.inner A t B) (hd : Drawn s A)
    (hclose : closeScope t = .ok (u, s')) : Draws nodes s A s' B ∧ Closes s s' := by
  rw [closeScope_run h.progress.evolves.scopes] at hclose
  cases hclose
  exact ⟨⟨progress_scope hd h.progress.toAdvance h.progress.ready fun _ _ _ _ _ => trivial, h.laid, h.made, h.calm⟩,
    fun _ _ hv hx => closed_of_made h.progress.evolves.toDrifts hv hx⟩

/-! ## Frames -/

/-- The innermost frame was pushed in another sketch and tells the variables in a set. -/
def Framed (V : Nat → Prop) (s₀ s : Sketch) : Prop :=
  ∃ f, s.frames = f :: s₀.frames ∧ ∀ v : Nat, f.contains v = true ↔ V v

theorem framed_push (hs : s.frames = .empty :: s₀.frames) : Framed (fun _ => False) s₀ s :=
  ⟨_, hs, fun v => by simp⟩

theorem Framed.grow (h : Framed V s₀ s) (hg : FramesGrow V' s.frames s'.frames) :
    Framed (fun v => V v ∨ V' v) s₀ s' := by
  obtain ⟨f, hf, hV⟩ := h
  rw [hf] at hg
  obtain ⟨f', hf', hV'⟩ := hg
  exact ⟨f', hf', fun v => by rw [hV', hV]⟩

theorem popFrame_ok {a : BitSet.Plain} (h : Framed V s₀ t) (hrun : popFrame t = .ok (a, s')) :
    (∀ v : Nat, a.contains v = true ↔ V v) ∧ s' = { t with frames := s'.frames } ∧
      FramesGrow V s₀.frames s'.frames := by
  obtain ⟨f, hf, hV⟩ := h
  obtain ⟨⟩ := t
  cases hf
  cases hfs : s₀.frames with
  | nil =>
    rw [hfs] at hrun
    cases hrun
    exact ⟨hV, rfl, rfl⟩
  | cons g fs =>
    rw [hfs] at hrun
    cases hrun
    exact ⟨hV, rfl, g.union a, rfl, fun v => by rw [BitSet.Plain.contains_union, hV]⟩

end Codesmith.Describe
