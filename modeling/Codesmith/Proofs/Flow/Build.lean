import Codesmith.Proofs.Flow.Dominators

/-!
# The graph of a function

`Graph.build` succeeds for every table of successors whose reached blocks lead to blocks, and what it
computes is what the successors say: which blocks are reached, which predecessors a block has and how
often, and which blocks dominate a reached block.
-/

namespace Codesmith.Graph

variable {preds preds' : Array (List Label)}

variable {n : Nat} {succs : Label → List Int}
variable {g : Graph} {b : Label}

/-! ## Predecessors -/

theorem addPreds_ok (l : Label) (ss : List Int) (preds : Array (List Label))
    (hss : ∀ s ∈ ss, 0 ≤ s ∧ s < preds.size) :
    ∃ preds', addPreds l ss preds = .ok preds' ∧ preds'.size = preds.size ∧ ∀ b, b < preds.size →
        preds'.getD b [] = preds.getD b [] ++ List.replicate (ss.count (b : Int)) l := by
  induction ss generalizing preds with
  | nil => exact ⟨preds, rfl, rfl, fun b _ => by simp⟩
  | cons s ss ih =>
    obtain ⟨h0, h1⟩ := hss s List.mem_cons_self
    obtain ⟨t, rfl⟩ := Int.eq_ofNat_of_zero_le h0
    have ht : t < preds.size := by omega
    obtain ⟨preds', hok, hsize, hget⟩ := ih (preds.modify t fun ps => ps ++ [l])
      (by simpa using fun s hs => hss s (List.mem_cons_of_mem _ hs))
    rw [Array.size_modify] at hsize hget
    refine ⟨preds', ?_, hsize, fun b hb => ?_⟩
    · rw [addPreds, inRange?_eq_some.2 ⟨rfl, ht⟩]
      exact hok
    · rw [hget b hb, Array.getD_eq_getD_getElem?, Array.getD_eq_getD_getElem?,
        Array.getElem?_modify, List.count_cons]
      by_cases hbt : t = b
      · subst hbt
        simp [hb, List.replicate_succ]
      · simp [hbt]

theorem collectPreds_ok (ls : List Label) (preds : Array (List Label))
    (hls : ∀ l ∈ ls, ∀ s ∈ succs l, 0 ≤ s ∧ s < preds.size) :
    ∃ preds', collectPreds succs ls preds = .ok preds' ∧ preds'.size = preds.size ∧
      ∀ b, b < preds.size → preds'.getD b [] =
        preds.getD b [] ++ ls.flatMap fun l => List.replicate ((succs l).count (b : Int)) l := by
  induction ls generalizing preds with
  | nil => exact ⟨preds, rfl, rfl, fun b _ => by simp⟩
  | cons l ls ih =>
    obtain ⟨preds', hok, hsize, hget⟩ := addPreds_ok l (succs l) preds (hls l List.mem_cons_self)
    obtain ⟨preds'', hok', hsize', hget'⟩ := ih preds' fun k hk => hsize ▸ hls k (List.mem_cons_of_mem _ hk)
    refine ⟨preds'', ?_, hsize'.trans hsize, fun b hb => ?_⟩
    · rw [collectPreds, hok]
      exact hok'
    · rw [hget' b (hsize ▸ hb), hget b hb, List.flatMap_cons, List.append_assoc]

theorem mem_flatMap_live {live : List Label} (hlive : ∀ l, l ∈ live ↔ Reaches succs l)
    (b p : Label) : (p ∈ live.flatMap fun l => List.replicate ((succs l).count (b : Int)) l) ↔
      Reaches succs p ∧ Edge succs p b := by
  simp only [List.mem_flatMap, List.mem_replicate, ← hlive, Edge]
  constructor
  · rintro ⟨l, hl, hc, rfl⟩
    exact ⟨hl, List.count_pos_iff.1 (Nat.pos_of_ne_zero hc)⟩
  · rintro ⟨hp, e⟩
    exact ⟨p, hp, (List.count_pos_iff.2 e).ne', rfl⟩

/-! ## Dominance -/

/-- What a graph says about its successors. -/
structure Describes (g : Graph) (n : Nat) (succs : Label → List Int) : Prop where
  order : Order succs n g.rpo
  place : ∀ l ∈ g.rpo, g.order[l]? = some (some (g.rpo.idxOf l))
  reachable : ∀ l, g.reachable l = true ↔ Reaches succs l
  size : g.preds.size = n
  preds : ∃ live : List Label, live.Pairwise (· < ·) ∧ (∀ l, l ∈ live ↔ Reaches succs l) ∧
    ∀ b < n, g.preds.getD b [] = live.flatMap fun l => List.replicate ((succs l).count (b : Int)) l
  dominates : ∀ a b, Reaches succs b → (g.dominates a b = true ↔ Dom succs a b)

theorem Describes.mem_preds (h : g.Describes n succs) (hb : b < n) (p : Label) :
    p ∈ g.preds.getD b [] ↔ Reaches succs p ∧ Edge succs p b := by
  obtain ⟨live, -, hlive, heq⟩ := h.preds
  rw [heq b hb, mem_flatMap_live hlive]

theorem dom_entry_iff {a : Label} : Dom succs a entry ↔ a = entry := by
  constructor
  · exact fun h => List.mem_singleton.1 (h _ .entry)
  · rintro rfl
    exact .refl _

/-- Climbing the links decides dominance. -/
theorem Settled.climbs_iff (o : Order succs n g.rpo) (h : Settled succs n g.rpo g.idom) (a : Label)
    (steps : Nat) (hb : b ∈ g.rpo) (hsteps : g.rpo.idxOf b ≤ steps) :
    g.climbs a steps b = true ↔ Dom succs a b := by
  induction steps generalizing b with
  | zero =>
    have hbe : b = entry := o.eq_of_idxOf hb (by rw [o.idxOf_entry]; omega)
    subst hbe
    rw [climbs, dom_entry_iff, decide_eq_true_iff]
  | succ steps ih =>
    rw [climbs]
    by_cases hab : a = b
    · rw [if_pos hab]
      exact iff_of_true rfl (hab ▸ .refl a)
    rw [if_neg hab]
    by_cases hbe : b = entry
    · subst hbe
      rw [if_pos rfl, dom_entry_iff]
      exact iff_of_false Bool.false_ne_true hab
    · obtain ⟨d, hd⟩ := Option.isSome_iff_exists.1 (h.linked b hb)
      obtain ⟨hlt, hs⟩ := h.links.lower b d hbe hd
      rw [if_neg hbe, show g.idom[b]?.join = some d from hd]
      refine (ih (h.links.mem d hs) (by omega)).trans ?_
      exact ⟨fun had => had.trans (h.dom b d hd), h.links.sound b d hbe hd a hab⟩

/-- The parts of a graph: the order of the search, the predecessors, and what the rounds lead to. -/
structure Built (g : Graph) (n : Nat) (succs : Label → List Int) : Prop where
  rpo : g.rpo = (explore n succs).done
  order : g.order = places n g.rpo
  size : g.preds.size = n
  preds : ∃ live : List Label, live.Pairwise (· < ·) ∧ (∀ l, l ∈ live ↔ Reaches succs l) ∧
    ∀ b < n, g.preds.getD b [] = live.flatMap fun l => List.replicate ((succs l).count (b : Int)) l
  solved : solve g.preds g.order g.rpo.tail (n * n + 1)
    ((Array.replicate n none).setIfInBounds entry (some entry)) = .ok g.idom

theorem Built.holdsPreds (h : g.Built n succs) (o : Order succs n g.rpo) : HoldsPreds succs g.preds := by
  obtain ⟨live, -, hlive, heq⟩ := h.preds
  intro b p hb
  rw [heq b (o.lt b ((o.mem b).2 hb)), mem_flatMap_live hlive]

theorem Built.settled (h : g.Built n succs) (h0 : 0 < n) (o : Order succs n g.rpo) :
    Settled succs n g.rpo g.idom := by
  obtain ⟨idom, hidom, hset⟩ := solve_ok o (h.holdsPreds o) h0 (n * n + 1) (t := 0) (by nlinarith)
    (passed_start o h0)
  rw [← h.order, h.solved] at hidom
  exact Except.ok.inj hidom ▸ hset

/-- The graph of successors that are all blocks exists. -/
theorem exists_built (h0 : 0 < n) (hr : InRange n succs) : ∃ g, build n succs = .ok g ∧ g.Built n succs := by
  have o := explore_order h0 hr
  let live := (List.range n).filter fun l => (explore n succs).seen.getD l false
  have hlive : ∀ l, l ∈ live ↔ Reaches succs l := by
    intro l
    have hmem : l ∈ live ↔ l < n ∧ (explore n succs).Saw l := by
      simp [live, Visit.Saw, Array.getD_eq_getD_getElem?, Option.getD_eq_iff]
    rw [hmem, explore_saw_iff h0 hr, ← o.mem]
    exact and_iff_right_of_imp (o.lt l)
  obtain ⟨preds, hpreds, hsize, hget⟩ := collectPreds_ok live (Array.replicate n []) fun l hl => by
    simpa using hr l ((hlive l).1 hl)
  have heq : ∀ b < n, preds.getD b [] =
      live.flatMap fun l => List.replicate ((succs l).count (b : Int)) l := by
    intro b hb
    simpa [hb] using hget b (by simpa using hb)
  have hholds : HoldsPreds succs preds := by
    intro b p hb
    rw [heq b (o.lt b ((o.mem b).2 hb)), mem_flatMap_live hlive]
  obtain ⟨idom, hidom, -⟩ := solve_ok o hholds h0 (n * n + 1) (t := 0) (by nlinarith) (passed_start o h0)
  refine ⟨⟨preds, (explore n succs).done, places n (explore n succs).done, idom⟩, ?_,
    rfl, rfl, by simpa using hsize, ⟨live, List.pairwise_lt_range.filter _, hlive, heq⟩, hidom⟩
  rw [build, if_neg h0.ne']
  simp only [live] at hpreds
  simp only [hpreds, hidom, bind, Except.bind, pure, Except.pure]

/-- The graph of successors that are all blocks exists and describes them. -/
theorem build_ok (h0 : 0 < n) (hr : InRange n succs) : ∃ g, build n succs = .ok g ∧ g.Describes n succs := by
  obtain ⟨g, hg, hbuilt⟩ := exists_built h0 hr
  have o : Order succs n g.rpo := hbuilt.rpo ▸ explore_order h0 hr
  have hset := hbuilt.settled h0 o
  exact ⟨g, hg, {
    order := o
    place := fun l hl => hbuilt.order ▸ o.places_eq hl
    reachable := fun l => by
      rw [reachable, hbuilt.order]
      exact (o.join_places_isSome l).trans (o.mem l)
    size := hbuilt.size
    preds := hbuilt.preds
    dominates := fun a b hb => by
      have hb := (o.mem b).2 hb
      refine hset.climbs_iff o a _ hb ?_
      rw [hset.links.size]
      exact (o.idxOf_lt hb).le }⟩

theorem addPreds_inRange {l : Label} {ss : List Int}
    (h : addPreds l ss preds = .ok preds') :
    preds'.size = preds.size ∧ ∀ s ∈ ss, 0 ≤ s ∧ s < preds.size := by
  induction ss generalizing preds with
  | nil =>
    cases h
    simp
  | cons s ss ih =>
    rw [addPreds] at h
    split at h
    · cases h
    · rename_i t hs
      obtain ⟨rfl, ht⟩ := inRange?_eq_some.1 hs
      obtain ⟨hsize, hss⟩ := ih h
      rw [Array.size_modify] at hsize hss
      exact ⟨hsize, List.forall_mem_cons.2 ⟨⟨Int.natCast_nonneg t, Int.ofNat_lt.2 ht⟩, hss⟩⟩

theorem collectPreds_inRange {ls : List Label}
    (h : collectPreds succs ls preds = .ok preds') :
    ∀ l ∈ ls, ∀ s ∈ succs l, 0 ≤ s ∧ s < preds.size := by
  induction ls generalizing preds with
  | nil => simp
  | cons l ls ih =>
    rw [collectPreds] at h
    split at h
    · cases h
    · rename_i preds1 hl
      obtain ⟨hsize, hss⟩ := addPreds_inRange hl
      exact List.forall_mem_cons.2 ⟨hss, hsize ▸ ih h⟩

theorem describes_of_build (h : build n succs = .ok g) : g.Describes n succs := by
  by_cases h0 : n = 0
  · rw [build, if_pos h0] at h
    cases h
  have hpos := Nat.pos_of_ne_zero h0
  have hr : InRange n succs := by
    rw [build, if_neg h0] at h
    obtain ⟨preds, hp, -⟩ := bind_eq_ok.1 h
    obtain ⟨new, -, hex⟩ := explore_explored succs hpos
    refine inRange_of_saw hpos fun l hl => ?_
    have hlt : l < n := by
      simpa [hex.size] using (Array.getElem?_eq_some_iff.1 hl).1
    have hseen : (explore n succs).seen[l]? = some true := hl
    simpa using collectPreds_inRange hp l (by simp [hlt, hseen])
  obtain ⟨g', hg', hd⟩ := build_ok hpos hr
  exact Except.ok.inj (hg'.symm.trans h) ▸ hd

/-! ## Exactness -/

/-- Successors that are all among the first `n` blocks lead from the entry to such blocks only. -/
theorem inRange_of_labels (h0 : 0 < n) (h : ∀ l < n, ∀ s ∈ succs l, 0 ≤ s ∧ s < n) : InRange n succs := by
  suffices hlt : ∀ vs l, Trail succs vs l → l < n from fun l ⟨vs, ht⟩ => h l (hlt vs l ht)
  intro vs l ht
  induction ht with
  | entry => exact h0
  | @step vs a b _ e ih => exact Int.ofNat_lt.1 (h a ih _ e).2

/-- Dominators are exact: for successors that are all blocks there is a graph, and one block dominates
a reachable block in it exactly if every trail from the entry to that block passes the first. -/
theorem dominates_iff_on_every_trail (h0 : 0 < n) (h : ∀ l < n, ∀ s ∈ succs l, 0 ≤ s ∧ s < n) :
    ∃ g, build n succs = .ok g ∧ ∀ a b, Reaches succs b →
      (g.dominates a b = true ↔ ∀ vs, Trail succs vs b → a ∈ vs) := by
  obtain ⟨g, hg, hdesc⟩ := build_ok h0 (inRange_of_labels h0 h)
  exact ⟨g, hg, hdesc.dominates⟩

/-- Two blocks that lead into each other and are both entered from outside, with a loop of one block,
a doubled edge, an edge back to the entry and a block that nothing leads to. -/
def tangle : Label → List Int
  | 0 => [1, 2]
  | 1 => [2, 1, 3, 3]
  | 2 => [1, 0]
  | 4 => [3]
  | _ => []

theorem dominates_iff_on_every_trail_tangle : (∀ l < 5, ∀ s ∈ tangle l, 0 ≤ s ∧ s < 5) ∧
    ∃ g, build 5 tangle = .ok g ∧ (∀ vs, Trail tangle vs 3 → 1 ∈ vs) ∧
      ¬ ∀ vs, Trail tangle vs 3 → 2 ∈ vs := by
  have hrange : ∀ l < 5, ∀ s ∈ tangle l, 0 ≤ s ∧ s < 5 := by decide
  have h01 : Edge tangle entry 1 := by simp [Edge, tangle, entry]
  have h13 : Edge tangle 1 3 := by simp [Edge, tangle]
  have hreach : Reaches tangle 3 := (reaches_entry.step h01).step h13
  obtain ⟨g, hg, hdom⟩ := dominates_iff_on_every_trail (by decide) hrange
  have hgraph : (build 5 tangle).toOption.map (fun g => (g.dominates 1 3, g.dominates 2 3)) =
      some (true, false) := by decide +kernel
  rw [hg] at hgraph
  obtain ⟨h1, h2⟩ := Prod.mk.inj (Option.some.inj hgraph)
  refine ⟨hrange, g, hg, (hdom 1 3 hreach).1 h1, fun hall => ?_⟩
  exact Bool.false_ne_true (h2.symm.trans ((hdom 2 3 hreach).2 hall))

end Codesmith.Graph
