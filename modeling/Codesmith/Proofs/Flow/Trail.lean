import Codesmith.Proofs.Except
import Codesmith.Flow.Graph

/-!
# Trails and dominance

A trail is a walk from the entry, written as the list of the blocks it has met, latest first. A
block is reached if a trail ends at it, and block `a` dominates block `b` if every trail to `b` has
met `a`. These notions speak of successor lists only; `Graph.build` computes them.
-/

namespace Codesmith.Graph

variable {succs : Label → List Int} {a b c : Label} {vs : List Label}

/-- Control may pass from `a` to `b`. -/
def Edge (succs : Label → List Int) (a b : Label) : Prop :=
  (b : Int) ∈ succs a

/-- A walk from the entry to a block, as the blocks it has met, latest first. -/
inductive Trail (succs : Label → List Int) : List Label → Label → Prop
  | entry : Trail succs [entry] entry
  | step {vs : List Label} {a b : Label} :
      Trail succs vs a → Edge succs a b → Trail succs (b :: vs) b

/-- Some trail ends at the block. -/
def Reaches (succs : Label → List Int) (b : Label) : Prop :=
  ∃ vs, Trail succs vs b

/-- Control may get from `a` to `b`. -/
def Leads (succs : Label → List Int) : Label → Label → Prop :=
  Relation.ReflTransGen (Edge succs)

/-- Every trail to `b` has met `a`. -/
def Dom (succs : Label → List Int) (a b : Label) : Prop :=
  ∀ vs, Trail succs vs b → a ∈ vs

/-! ## Trails -/

theorem Trail.eq_cons (h : Trail succs vs b) : ∃ us, vs = b :: us := by
  cases h with
  | entry => exact ⟨[], rfl⟩
  | step => exact ⟨_, rfl⟩

theorem Trail.mem_self (h : Trail succs vs b) : b ∈ vs := by
  obtain ⟨us, rfl⟩ := h.eq_cons
  exact List.mem_cons_self

theorem reaches_entry : Reaches succs entry :=
  ⟨_, .entry⟩

theorem Reaches.step (h : Reaches succs a) (e : Edge succs a b) : Reaches succs b := by
  obtain ⟨vs, h⟩ := h
  exact ⟨_, h.step e⟩

theorem Reaches.mono {succs' : Label → List Int} (h : Reaches succs b)
    (he : ∀ a b, Edge succs a b → Edge succs' a b) : Reaches succs' b := by
  obtain ⟨vs, h⟩ := h
  induction h with
  | entry => exact reaches_entry
  | step _ e ih => exact ih.step (he _ _ e)

/-- A trail can be cut short at every block that it has met. -/
theorem Trail.cut (h : Trail succs vs b) (hc : c ∈ vs) : ∃ us, Trail succs us c ∧ us <:+ vs := by
  induction h with
  | entry =>
    rw [List.mem_singleton.1 hc]
    exact ⟨_, .entry, List.suffix_rfl⟩
  | @step vs a b h e ih =>
    rcases List.mem_cons.1 hc with rfl | hc
    · exact ⟨_, h.step e, List.suffix_rfl⟩
    · obtain ⟨us, hus, hsuf⟩ := ih hc
      exact ⟨us, hus, hsuf.trans (List.suffix_cons b vs)⟩

theorem Trail.reaches (h : Trail succs vs b) (hc : c ∈ vs) : Reaches succs c := by
  obtain ⟨us, hus, -⟩ := h.cut hc
  exact ⟨us, hus⟩

/-- Every trail contains one that meets no block twice. -/
theorem Trail.simple (h : Trail succs vs b) : ∃ us, Trail succs us b ∧ us.Nodup ∧ us ⊆ vs := by
  induction h with
  | entry => exact ⟨_, .entry, List.nodup_singleton _, List.Subset.refl _⟩
  | @step vs a b h e ih =>
    obtain ⟨us, hus, hnd, hsub⟩ := ih
    by_cases hb : b ∈ us
    · obtain ⟨ws, hws, hsuf⟩ := hus.cut hb
      exact ⟨ws, hws, hnd.sublist hsuf.sublist, fun x hx => List.mem_cons_of_mem _ (hsub (hsuf.subset hx))⟩
    · exact ⟨b :: us, hus.step e, List.nodup_cons.2 ⟨hb, hnd⟩, List.cons_subset_cons b hsub⟩

theorem Reaches.first (h : Reaches succs b) : ∃ us, Trail succs (b :: us) b ∧ b ∉ us := by
  obtain ⟨vs, h⟩ := h
  obtain ⟨us, hus, hnd, -⟩ := h.simple
  obtain ⟨us, rfl⟩ := hus.eq_cons
  exact ⟨us, hus, (List.nodup_cons.1 hnd).1⟩

/-! ## Dominance -/

theorem Dom.refl (b : Label) : Dom succs b b :=
  fun _ h => h.mem_self

theorem Dom.trans (hab : Dom succs a b) (hbc : Dom succs b c) : Dom succs a c := by
  intro vs h
  obtain ⟨us, hus, hsuf⟩ := h.cut (hbc vs h)
  exact hsuf.subset (hab us hus)

theorem Dom.reaches (h : Dom succs a b) (hb : Reaches succs b) : Reaches succs a := by
  obtain ⟨vs, hvs⟩ := hb
  exact hvs.reaches (h vs hvs)

/-- What dominates a block from outside dominates its predecessors. -/
theorem Dom.of_edge (h : Dom succs a b) (hab : a ≠ b) (e : Edge succs c b) : Dom succs a c := by
  intro vs hvs
  exact (List.mem_cons.1 (h _ (hvs.step e))).resolve_left hab

theorem Dom.antisymm (hab : Dom succs a b) (hba : Dom succs b a) (hb : Reaches succs b) : a = b := by
  by_contra hne
  obtain ⟨us, hus, hnot⟩ := hb.first
  obtain ⟨ws, hws, hsuf⟩ := hus.cut (hab _ hus)
  -- The trail to `a` is shorter than the one to `b`, so it has not met `b` yet.
  rcases List.suffix_cons_iff.1 hsuf with rfl | hsuf
  · obtain ⟨_, h⟩ := hws.eq_cons
    exact hne (List.cons.inj h).1.symm
  · exact hnot (hsuf.subset (hba ws hws))

end Codesmith.Graph
