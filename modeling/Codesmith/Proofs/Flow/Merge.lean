import Codesmith.Proofs.Flow.Trail

/-!
# Merged definitions

Where control joins, a definition may stand for one of several others, by the edge that control took. If
all of these lead to one definition, that one can take its place. It then stands in a block that strictly
dominates the block of the join. This holds of any names with blocks, whatever they name.
-/

namespace Codesmith.Graph

variable {α τ : Type} {succs : Label → List Int} {home : α → Option Label} {ty : α → τ} {σ : α → α}
  {k l : Label} {x : α} {vs : List Label}

/-- A replacement of definitions at joins. On every edge to the join comes a definition of the same type
that is replaced alike and was met on the way to the edge. -/
structure Merges (succs : Label → List Int) (home : α → Option Label) (ty : α → τ) (σ : α → α) :
    Prop where
  idem : ∀ x, σ (σ x) = σ x
  joins : ∀ x, σ x ≠ x → ∃ l, home x = some l ∧ Reaches succs l ∧ l ≠ entry ∧
    ∀ p, Reaches succs p → Edge succs p l →
      ∃ y k, home y = some k ∧ Dom succs k p ∧ σ y = σ x ∧ ty y = ty x

/-- Every trail to a block that a definition dominates has met the block of what takes its place. -/
theorem Merges.mem_trail (h : Merges succs home ty σ) (ht : Trail succs vs l) (hx : home x = some k)
    (hk : Dom succs k l) : ∃ q, home (σ x) = some q ∧ q ∈ vs ∧ ty (σ x) = ty x := by
  induction hn : vs.length using Nat.strong_induction_on generalizing vs l k x with
  | _ n ih =>
    by_cases he : σ x = x
    · exact ⟨k, by rw [he, hx], hk vs ht, by rw [he]⟩
    -- The trail came to the join from a block on which one of the merged definitions was met.
    obtain ⟨l', hl', -, hne, hjoin⟩ := h.joins x he
    cases hx.symm.trans hl'
    obtain ⟨us, hus, hsuffix⟩ := ht.cut (hk vs ht)
    cases hus with
    | entry => exact absurd rfl hne
    | @step us p _ hus e =>
      obtain ⟨y, j, hy, hdom, hyx, hty⟩ := hjoin p ⟨us, hus⟩ e
      have hlen : us.length < n := hn ▸ hsuffix.length_le
      obtain ⟨q, hq, hmem, hqty⟩ := ih us.length hlen hus hy hdom rfl
      rw [hyx] at hq hqty
      exact ⟨q, hq, hsuffix.subset (List.mem_cons_of_mem _ hmem), hqty.trans hty⟩

/-- What takes the place of a definition stands in a block that strictly dominates the join. -/
theorem Merges.dom (h : Merges succs home ty σ) (he : σ x ≠ x) :
    ∃ l q, home x = some l ∧ home (σ x) = some q ∧ Reaches succs l ∧ Dom succs q l ∧ q ≠ l := by
  obtain ⟨l, hl, hr, hne, hjoin⟩ := h.joins x he
  obtain ⟨us, ht, hnot⟩ := hr.first
  cases ht with
  | entry => exact absurd rfl hne
  | @step us p _ ht e =>
    obtain ⟨y, k, hy, hk, hyx, -⟩ := hjoin p ⟨us, ht⟩ e
    obtain ⟨q, hq, hmem, -⟩ := h.mem_trail ht hy hk
    rw [hyx] at hq
    refine ⟨l, q, hl, hq, hr, fun vs hvs => ?_, fun heq => hnot (heq ▸ hmem)⟩
    obtain ⟨q', hq', hmem', -⟩ := h.mem_trail hvs hl (.refl l)
    cases hq.symm.trans hq'
    exact hmem'

theorem Merges.ty_eq (h : Merges succs home ty σ) (x : α) : ty (σ x) = ty x := by
  by_cases he : σ x = x
  · rw [he]
  · obtain ⟨l, hl, ⟨vs, ht⟩, -⟩ := h.joins x he
    obtain ⟨q, -, -, hty⟩ := h.mem_trail ht hl (.refl l)
    exact hty

/-- Where a replaced definition was met before, what takes its place was met earlier. -/
theorem Merges.apart (h : Merges succs home ty σ) (he : σ x ≠ x) (hx : home x = some k)
    (hk : Dom succs k l) {q : Label} (hq : home (σ x) = some q) : q ≠ l ∧ Dom succs q l := by
  obtain ⟨k', q', hk', hq', hr, hdom, hne⟩ := h.dom he
  cases hq.symm.trans hq'
  cases hx.symm.trans hk'
  refine ⟨fun heq => hne ?_, hdom.trans hk⟩
  exact hdom.antisymm (heq ▸ hk) hr

end Codesmith.Graph
