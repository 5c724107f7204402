import Codesmith.Proofs.Flow.Build

/-!
# Reverse postorder and predecessors

`Graph.build` lists the reached blocks in reverse postorder: an edge that does not go forward in the
list lies on a cycle, so the list is a topological order if no reached block lies on a cycle. The
predecessors of a block are listed ascending, each as often as it has the block as a successor.
-/

namespace Codesmith.Graph

variable {n : Nat} {succs : Label → List Int} {rpo : List Label}
variable {a b : Label} {live : List Label}

/-- No reached block lies on a cycle. -/
def Acyclic (succs : Label → List Int) : Prop :=
  ∀ l, Reaches succs l → ¬ Relation.TransGen (Edge succs) l l

/-! ## The order -/

/-- An edge goes forward in the order, or its end leads back to its start. -/
theorem Order.forward_or_leads (o : Order succs n rpo) (ha : a ∈ rpo) (e : Edge succs a b) :
    rpo.idxOf a < rpo.idxOf b ∨ Leads succs b a := by
  refine (o.back a ha b e).imp_left ?_
  rintro ⟨pre, post, heq, hb⟩
  have hnd := o.nodup
  rw [heq] at hnd
  obtain ⟨-, hpost, hapart⟩ := List.nodup_append.1 hnd
  have hne : b ≠ a := fun h => (List.nodup_cons.1 hpost).1 (h ▸ hb)
  have hapre : a ∉ pre := fun h => hapart a h a List.mem_cons_self rfl
  have hbpre : b ∉ pre := fun h => hapart b h b (List.mem_cons_of_mem _ hb) rfl
  rw [heq, List.idxOf_append_of_notMem hapre, List.idxOf_append_of_notMem hbpre,
    List.idxOf_cons_self, List.idxOf_cons_ne _ hne.symm]
  omega

/-- Without cycles every edge goes forward. -/
theorem Order.forward_of_acyclic (o : Order succs n rpo) (hac : Acyclic succs) (ha : a ∈ rpo)
    (e : Edge succs a b) : rpo.idxOf a < rpo.idxOf b :=
  (o.forward_or_leads ha e).resolve_right fun hlead =>
    hac a ((o.mem a).1 ha) (Relation.TransGen.head' e hlead)

/-! ## Predecessors -/

theorem count_flatMap_replicate (hnd : live.Nodup) (count : Label → Nat) (p : Label) :
    (live.flatMap fun l => List.replicate (count l) l).count p = if p ∈ live then count p else 0 := by
  induction live with
  | nil => rfl
  | cons l live ih =>
    obtain ⟨hl, hnd⟩ := List.nodup_cons.1 hnd
    rw [List.flatMap_cons, List.count_append, List.count_replicate, ih hnd]
    by_cases hp : l = p
    · subst hp
      simp [hl]
    · simp [hp, Ne.symm hp]

theorem pairwise_flatMap_replicate (hlt : live.Pairwise (· < ·)) (count : Label → Nat) :
    (live.flatMap fun l => List.replicate (count l) l).Pairwise (· ≤ ·) := by
  rw [List.pairwise_flatMap]
  refine ⟨fun l _ => List.pairwise_replicate.2 (.inr le_rfl), hlt.imp fun hab x hx y hy => ?_⟩
  rw [List.eq_of_mem_replicate hx, List.eq_of_mem_replicate hy]
  exact hab.le

/-- The predecessors of a block are listed ascending, with the multiplicity of the edges. -/
theorem Describes.count_preds {g : Graph} (h : g.Describes n succs) (hb : b < n) :
    (g.preds.getD b []).Pairwise (· ≤ ·) ∧ ∀ p, Reaches succs p →
      (g.preds.getD b []).count p = (succs p).count (b : Int) := by
  obtain ⟨live, hlt, hlive, heq⟩ := h.preds
  rw [heq b hb]
  refine ⟨pairwise_flatMap_replicate hlt _, fun p hp => ?_⟩
  rw [count_flatMap_replicate (hlt.imp LT.lt.ne), if_pos ((hlive p).2 hp)]

/-! ## Every graph -/

/-- For successors that are all blocks there is a graph. It lists exactly the reached blocks, each once
and the entry first. An edge between them that does not go forward lies on a cycle, so without cycles
the list is a topological order; and every other block than the entry comes after a predecessor. The
predecessors of each block are its reached ones, ascending, each as often as it has the block as a
successor. -/
theorem build_reverse_postorder (h0 : 0 < n) (h : ∀ l < n, ∀ s ∈ succs l, 0 ≤ s ∧ s < n) :
    ∃ g, build n succs = .ok g ∧ (g.rpo.head? = some entry ∧ g.rpo.Nodup ∧ ∀ l, l ∈ g.rpo ↔ Reaches succs l) ∧
      (∀ a b, Reaches succs a → Edge succs a b → ¬ g.rpo.idxOf a < g.rpo.idxOf b → Leads succs b a) ∧
      (Acyclic succs → ∀ a b, Reaches succs a → Edge succs a b → g.rpo.idxOf a < g.rpo.idxOf b) ∧
      (∀ b, Reaches succs b → b ≠ entry → ∃ p ∈ g.rpo, Edge succs p b ∧ g.rpo.idxOf p < g.rpo.idxOf b) ∧
      g.preds.size = n ∧ ∀ b ps, g.preds[b]? = some ps → ps.Pairwise (· ≤ ·) ∧
        (∀ p, p ∈ ps ↔ Reaches succs p ∧ Edge succs p b) ∧
        ∀ p, Reaches succs p → ps.count p = (succs p).count (b : Int) := by
  obtain ⟨g, hg, hdesc⟩ := build_ok h0 (inRange_of_labels h0 h)
  have o := hdesc.order
  refine ⟨g, hg, ⟨o.head, o.nodup, o.mem⟩, fun a b ha e hle => ?_, fun hac a b ha e => ?_,
    fun b hb hne => o.earlier ((o.mem b).2 hb) hne, hdesc.size, fun b ps hps => ?_⟩
  · exact (o.forward_or_leads ((o.mem a).2 ha) e).resolve_left hle
  · exact o.forward_of_acyclic hac ((o.mem a).2 ha) e
  · have hb : b < n := hdesc.size ▸ (Array.getElem?_eq_some_iff.1 hps).1
    have hget : g.preds.getD b [] = ps := by
      rw [Array.getD_eq_getD_getElem?, hps, Option.getD_some]
    obtain ⟨hsorted, hcount⟩ := hdesc.count_preds hb
    exact ⟨hget ▸ hsorted, fun p => hget ▸ hdesc.mem_preds hb p, hget ▸ hcount⟩

/-- In the tangle the edge from `2` to `1` goes back, so `1` leads to `2`; block `3` has block `1` twice
as a predecessor, and not the block that nothing leads to. -/
theorem build_reverse_postorder_tangle : (∀ l < 5, ∀ s ∈ tangle l, 0 ≤ s ∧ s < 5) ∧
    ∃ g, build 5 tangle = .ok g ∧ g.rpo = [0, 1, 3, 2] ∧ g.preds[3]? = some [1, 1] ∧
      Leads tangle 1 2 ∧ ¬ (Reaches tangle 4 ∧ Edge tangle 4 3) := by
  have hrange : ∀ l < 5, ∀ s ∈ tangle l, 0 ≤ s ∧ s < 5 := by decide
  have hreach : Reaches tangle 2 := reaches_entry.step (by simp [Edge, tangle, entry])
  obtain ⟨g, hg, -, hback, -, -, -, hpreds⟩ := build_reverse_postorder (by decide) hrange
  have hgraph : (build 5 tangle).toOption.map (fun g => (g.rpo, g.preds[3]?)) =
      some ([0, 1, 3, 2], some [1, 1]) := by decide +kernel
  rw [hg] at hgraph
  obtain ⟨hrpo, h3⟩ := Prod.mk.inj (Option.some.inj hgraph)
  refine ⟨hrange, g, hg, hrpo, h3, hback 2 1 hreach (by simp [Edge, tangle]) ?_, fun h => ?_⟩
  · rw [hrpo]
    decide
  · exact absurd (((hpreds 3 _ h3).2.1 4).2 h) (by decide)

end Codesmith.Graph
