import Codesmith.Proofs.Chart.Edit

/-!
# The rule for joined values

Both verifiers count: a value that joins others is accepted if it has as many values from reached
blocks as its block has predecessors, and exactly one from each of these. As no block lists a
successor twice, this says that the values come from the predecessors, one from each.
-/

namespace Codesmith

variable {α : Type}

theorem forM_ok_iff {ε : Type} {f : α → Except ε Unit} {xs : List α} :
    xs.forM f = .ok () ↔ ∀ x ∈ xs, f x = .ok () := by
  induction xs with
  | nil => exact iff_of_true rfl (by simp)
  | cons x xs ih =>
    rw [List.forall_mem_cons, ← ih]
    exact seq_ok_iff

/-- A list that holds each of some distinct elements once is no longer than these exactly if it holds
nothing else. -/
theorem length_eq_iff_subset [DecidableEq α] (xs : List α) {ys : List α} (hys : ys.Nodup)
    (hcount : ∀ y ∈ ys, xs.count y = 1) : xs.length = ys.length ↔ ∀ x ∈ xs, x ∈ ys := by
  have hsub : ys.Subperm xs := by
    refine List.subperm_ext_iff.2 fun y hy => ?_
    rw [hcount y hy]
    exact List.nodup_iff_count_le_one.1 hys y
  constructor
  · exact fun hlen x hx => (hsub.perm_of_length_le hlen.le).symm.subset hx
  · intro hmem
    refine (List.perm_iff_count.2 fun a => ?_).length_eq
    by_cases ha : a ∈ ys
    · rw [hcount a ha, List.count_eq_one_of_mem hys ha]
    · rw [List.count_eq_zero.2 ha, List.count_eq_zero.2 fun hx => ha (hmem a hx)]

namespace Gen

theorem Exit.targets_nodup (e : Exit) : e.targets.Nodup := by
  cases e with
  | jump t => exact List.nodup_singleton t
  | branch c yes no =>
    simp only [Exit.targets]
    split
    · exact List.nodup_singleton yes
    · simp [*]
  | ret x => exact List.nodup_nil

namespace Chart

variable {l : Label}

theorem succs_nodup (c : Chart) (l : Label) : (c.succs l).Nodup := by
  unfold succs
  split
  · exact Exit.targets_nodup _
  · exact List.nodup_nil

variable {c : Chart} {g : Graph}

theorem preds_nodup (hg : g.Describes c.size c.succs) (hl : l < c.size) : (g.preds.getD l []).Nodup := by
  obtain ⟨live, hnd, -, heq⟩ := hg.preds
  rw [heq l hl, List.nodup_flatMap]
  constructor
  · intro p _
    exact List.nodup_replicate.2 (List.nodup_iff_count_le_one.1 (c.succs_nodup p) l)
  · refine hnd.imp fun {a b} hab => ?_
    intro x hx hx'
    exact hab.ne ((List.mem_replicate.1 hx).2.symm.trans (List.mem_replicate.1 hx').2)

section

variable (hc : c.Consistent) (hg : g.Describes c.size c.succs) (hl : Graph.Reaches c.succs l) (x : Ref)
  {live : List EdgeValue} (hlive : live = (c.incoming x).filter fun e => g.reachable e.source.toNat)
include hc hg hl hlive

/-- Counting the values that come from reached blocks tells whether they come from the predecessors,
one from each. -/
theorem count_iff :
    (live.length = (g.preds.getD l []).length ∧
        ∀ p ∈ g.preds.getD l [], live.countP (fun e => e.source == ((p : Label) : Int)) = 1) ↔
      (∀ p, Graph.Reaches c.succs p → Graph.Edge c.succs p l →
        (c.incoming x).countP (fun e => e.source == (p : Int)) = 1) ∧
      ∀ e ∈ c.incoming x, Graph.Reaches c.succs e.source.toNat → Graph.Edge c.succs e.source.toNat l := by
  have hlt := hc.reaches_lt hl
  have hnonneg : ∀ e ∈ c.incoming x, ((e.source.toNat : Nat) : Int) = e.source :=
    fun e he => Int.toNat_of_nonneg (hc.source x e he).1
  have hcount : ∀ p, Graph.Reaches c.succs p →
      live.countP (fun e => e.source == (p : Int)) =
        (c.incoming x).countP fun e => e.source == (p : Int) := by
    intro p hp
    rw [hlive, List.countP_filter]
    refine List.countP_congr fun e _ => ?_
    simp only [Bool.and_eq_true, beq_iff_eq, and_iff_left_iff_imp]
    rintro he
    rw [he, Int.toNat_natCast]
    exact (hg.reachable p).2 hp
  have hsources : ∀ p : Label, live.countP (fun e => e.source == (p : Int)) =
      (live.map EdgeValue.source).count (p : Int) := by
    intro p
    rw [List.count, List.countP_map]
    rfl
  have hpreds : ((g.preds.getD l []).map fun (p : Label) => (p : Int)).Nodup :=
    (preds_nodup hg hlt).map fun a b h => Int.natCast_inj.1 h
  have hmem : ∀ p : Label, p ∈ g.preds.getD l [] ↔
      Graph.Reaches c.succs p ∧ Graph.Edge c.succs p l := hg.mem_preds hlt
  rw [and_comm]
  constructor
  · rintro ⟨hone, hlen⟩
    refine ⟨fun p hp e => (hcount p hp).symm.trans (hone p ((hmem p).2 ⟨hp, e⟩)), fun e he hr => ?_⟩
    have hsub := (length_eq_iff_subset (live.map EdgeValue.source) hpreds ?_).1 (by simpa using hlen)
    · have hin : e ∈ live := by
        rw [hlive]
        exact List.mem_filter.2 ⟨he, (hg.reachable _).2 hr⟩
      obtain ⟨p, hp, hpe⟩ := List.mem_map.1 (hsub _ (List.mem_map_of_mem hin))
      rw [← hpe, Int.toNat_natCast]
      exact ((hmem p).1 hp).2
    · intro y hy
      obtain ⟨p, hp, rfl⟩ := List.mem_map.1 hy
      exact (hsources p).symm.trans (hone p hp)
  · rintro ⟨hone, hedge⟩
    have hone' : ∀ p ∈ g.preds.getD l [], live.countP (fun e => e.source == ((p : Label) : Int)) = 1 := by
      intro p hp
      obtain ⟨hr, e⟩ := (hmem p).1 hp
      exact (hcount p hr).trans (hone p hr e)
    refine ⟨hone', ?_⟩
    have hlen := (length_eq_iff_subset (live.map EdgeValue.source) hpreds ?_).2 ?_
    · simpa using hlen
    · intro y hy
      obtain ⟨p, hp, rfl⟩ := List.mem_map.1 hy
      exact (hsources p).symm.trans (hone' p hp)
    · intro y hy
      obtain ⟨e, he, rfl⟩ := List.mem_map.1 hy
      rw [hlive, List.mem_filter] at he
      have hr := (hg.reachable _).1 he.2
      exact List.mem_map.2 ⟨_, (hmem _).2 ⟨hr, hedge e he.1 hr⟩, hnonneg e he.1⟩

/-- Counting and looking at each value tells whether the values join. -/
theorem joins_iff {P : EdgeValue → Prop} (hP : ∀ e ∈ c.incoming x, Graph.Reaches c.succs e.source.toNat →
      (P e ↔ c.ty e.ref = c.ty x ∧ c.Available e.source.toNat (c.length e.source.toNat) e.ref)) :
    ((live.length = (g.preds.getD l []).length ∧
        ∀ p ∈ g.preds.getD l [], live.countP (fun e => e.source == ((p : Label) : Int)) = 1) ∧
      ∀ e ∈ live, P e) ↔ c.Joins l x := by
  rw [count_iff hc hg hl x hlive, hlive]
  simp only [List.mem_filter, hg.reachable, and_imp]
  constructor
  · rintro ⟨⟨hone, hedge⟩, heach⟩
    exact ⟨hone, fun e he hr => ⟨hedge e he hr, (hP e he hr).1 (heach e he hr)⟩⟩
  · intro hj
    exact ⟨⟨hj.one, fun e he hr => (hj.each e he hr).1⟩, fun e he hr => (hP e he hr).2 (hj.each e he hr).2⟩

end

end Chart

end Gen

end Codesmith
