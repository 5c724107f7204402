import Codesmith.Proofs.Flow.Trail

/-!
# Depth-first search

`Graph.depthFirst` adds the blocks that it finishes in front of those finished before. `Explored`
says what one call does: the new blocks were not seen before, their successors are all seen
afterwards, and each of them was asked for or follows one of its predecessors in the list. A successor
of a new block comes after it in the list, unless the successor was still being searched: then it leads
back to the block. For the search from the entry this means that the list holds the reached blocks, the
entry first, every other block after one of its predecessors, and every edge that does not go forward
lies on a cycle.
-/

namespace Codesmith.Graph

variable {n : Nat} {succs : Label → List Int}
variable {s : Int} {l : Label} {v w : Visit} {new : List Label} {depth : Nat}

/-- The successors of the reached blocks are among the first `n` blocks. -/
def InRange (n : Nat) (succs : Label → List Int) : Prop :=
  ∀ l, Reaches succs l → ∀ s ∈ succs l, 0 ≤ s ∧ s < n

theorem inRange?_eq_some : inRange? n s = some l ↔ s = l ∧ l < n := by
  cases s with
  | ofNat k =>
    simp only [inRange?, Option.ite_none_right_eq_some, Option.some.injEq, Int.ofNat_eq_natCast,
      Int.natCast_inj]
    constructor
    · rintro ⟨h, rfl⟩
      exact ⟨rfl, h⟩
    · rintro ⟨rfl, h⟩
      exact ⟨h, rfl⟩
  | negSucc k => simp [inRange?]

/-- The block is marked as seen. -/
def Visit.Saw (v : Visit) (l : Label) : Prop :=
  v.seen[l]? = some true

instance (v : Visit) (l : Label) : Decidable (v.Saw l) :=
  inferInstanceAs (Decidable (v.seen[l]? = some true))

/-- The blocks that are not seen yet. -/
def unseen (n : Nat) (v : Visit) : Finset Label :=
  {l ∈ Finset.range n | ¬ v.Saw l}

def Visit.mark (v : Visit) (l : Label) : Visit :=
  { v with seen := v.seen.setIfInBounds l true }

theorem Visit.saw_mark {k : Label} (hl : l < v.seen.size) : (v.mark l).Saw k ↔ v.Saw k ∨ k = l := by
  simp only [Visit.Saw, Visit.mark, Array.getElem?_setIfInBounds]
  by_cases h : l = k
  · subst h
    simp [hl]
  · simp [h, Ne.symm h]

theorem Visit.getD_seen (hl : l < v.seen.size) : v.seen.getD l true = true ↔ v.Saw l := by
  simp [Visit.Saw, Array.getD_eq_getD_getElem?, hl]

/-! ## One call -/

/-- What a search of the given blocks adds to a visit. -/
structure Explored (n : Nat) (succs : Label → List Int) (blocks : List Int) (v w : Visit)
    (new : List Label) : Prop where
  size : w.seen.size = v.seen.size
  done : w.done = new ++ v.done
  seen : ∀ l, w.Saw l ↔ v.Saw l ∨ l ∈ new
  fresh : ∀ l ∈ new, l < n ∧ ¬ v.Saw l
  nodup : new.Nodup
  covers : ∀ s ∈ blocks, ∀ l, inRange? n s = some l → w.Saw l
  closed : ∀ l ∈ new, ∀ s ∈ succs l, ∀ t, inRange? n s = some t → w.Saw t
  rooted : ∀ l ∈ new, (l : Int) ∈ blocks ∨
    ∃ pre post, new = pre ++ l :: post ∧ ∃ p ∈ pre, Edge succs p l
  least : ∀ P : Label → Prop, (∀ a b, P a → Edge succs a b → b < n → P b) →
    (∀ l : Label, (l : Int) ∈ blocks → l < n → P l) → ∀ l ∈ new, P l
  back : (∀ a, v.Saw a → a ∉ v.done → ∀ l : Label, (l : Int) ∈ blocks → Leads succs a l) →
    ∀ l ∈ new, ∀ t < n, Edge succs l t →
      (∃ pre post, w.done = pre ++ l :: post ∧ t ∈ post) ∨ Leads succs t l

theorem Explored.nil {blocks : List Int} (h : ∀ s ∈ blocks, ∀ l, inRange? n s = some l → v.Saw l) :
    Explored n succs blocks v v [] where
  size := rfl
  done := rfl
  seen := by simp
  fresh := by simp
  nodup := List.nodup_nil
  covers := h
  closed := by simp
  rooted := by simp
  least := by simp
  back := by simp

theorem Explored.cons {ss : List Int} {x : Visit} {new' : List Label} (h : Explored n succs [s] v w new)
    (h' : Explored n succs ss w x new') : Explored n succs (s :: ss) v x (new' ++ new) where
  size := h'.size.trans h.size
  done := by rw [h'.done, h.done, List.append_assoc]
  seen l := by
    rw [h'.seen, h.seen, List.mem_append]
    tauto
  fresh l hl := by
    rcases List.mem_append.1 hl with hl | hl
    · obtain ⟨hlt, hns⟩ := h'.fresh l hl
      exact ⟨hlt, fun hs => hns ((h.seen l).2 (.inl hs))⟩
    · exact h.fresh l hl
  nodup := by
    refine List.nodup_append.2 ⟨h'.nodup, h.nodup, fun a ha b hb hab => ?_⟩
    subst hab
    exact (h'.fresh a ha).2 ((h.seen a).2 (.inr hb))
  covers t ht l hl := by
    rcases List.mem_cons.1 ht with rfl | ht
    · exact (h'.seen l).2 (.inl (h.covers t (List.mem_singleton.2 rfl) l hl))
    · exact h'.covers t ht l hl
  closed l hl t ht k hk := by
    rcases List.mem_append.1 hl with hl | hl
    · exact h'.closed l hl t ht k hk
    · exact (h'.seen k).2 (.inl (h.closed l hl t ht k hk))
  rooted l hl := by
    rcases List.mem_append.1 hl with hl | hl
    · rcases h'.rooted l hl with hm | ⟨pre, post, rfl, hp⟩
      · exact .inl (List.mem_cons_of_mem _ hm)
      · exact .inr ⟨pre, post ++ new, by simp, hp⟩
    · rcases h.rooted l hl with hm | ⟨pre, post, rfl, p, hp, e⟩
      · exact .inl (List.mem_cons.2 (.inl (List.mem_singleton.1 hm)))
      · exact .inr ⟨new' ++ pre, post, by simp, p, List.mem_append_right _ hp, e⟩
  least P hP hb l hl := by
    rcases List.mem_append.1 hl with hl | hl
    · exact h'.least P hP (fun k hk => hb k (List.mem_cons_of_mem _ hk)) l hl
    · refine h.least P hP (fun k hk => hb k ?_) l hl
      exact List.mem_cons.2 (.inl (List.mem_singleton.1 hk))
  back hb l hl t ht e := by
    rcases List.mem_append.1 hl with hl | hl
    · -- What the first search has finished is no longer being searched.
      refine h'.back (fun a ha hnd k hk => ?_) l hl t ht e
      rw [h.done, List.mem_append, not_or] at hnd
      exact hb a (((h.seen a).1 ha).resolve_right hnd.1) hnd.2 k (List.mem_cons_of_mem _ hk)
    · have hb' : ∀ a, v.Saw a → a ∉ v.done → ∀ k : Label, (k : Int) ∈ [s] → Leads succs a k :=
        fun a ha hnd k hk => hb a ha hnd k (List.mem_cons.2 (.inl (List.mem_singleton.1 hk)))
      rcases h.back hb' l hl t ht e with ⟨pre, post, hw, hpost⟩ | hlead
      · exact .inl ⟨new' ++ pre, post, by rw [h'.done, hw, List.append_assoc], hpost⟩
      · exact .inr hlead

/-- Finishing a block that was not seen, once its successors are explored. -/
theorem Explored.finish (hl : l < n) (hsize : v.seen.size = n) (hns : ¬ v.Saw l)
    (h : Explored n succs (succs l) (v.mark l) w new) :
    Explored n succs [(l : Int)] v { w with done := l :: w.done } (l :: new) := by
  have hmark := fun k => v.saw_mark (k := k) (hl.trans_eq hsize.symm)
  have hw : ∀ k, w.Saw k ↔ v.Saw k ∨ k ∈ l :: new := by
    intro k
    rw [h.seen, hmark, List.mem_cons]
    tauto
  have hfresh : ∀ k ∈ new, k < n ∧ ¬ v.Saw k ∧ k ≠ l := by
    intro k hk
    obtain ⟨hlt, hns'⟩ := h.fresh k hk
    rw [hmark, not_or] at hns'
    exact ⟨hlt, hns'⟩
  exact {
    size := by rw [h.size]; simp [Visit.mark]
    done := by rw [h.done]; rfl
    seen := hw
    fresh := by
      intro k hk
      rcases List.mem_cons.1 hk with rfl | hk
      · exact ⟨hl, hns⟩
      · exact ⟨(hfresh k hk).1, (hfresh k hk).2.1⟩
    nodup := List.nodup_cons.2 ⟨fun hk => (hfresh l hk).2.2 rfl, h.nodup⟩
    covers := by
      intro s hs k hk
      rw [List.mem_singleton.1 hs, inRange?_eq_some, Int.natCast_inj] at hk
      exact (hw k).2 (.inr (hk.1 ▸ List.mem_cons_self))
    closed := by
      intro k hk s hs t ht
      rcases List.mem_cons.1 hk with rfl | hk
      · exact h.covers s hs t ht
      · exact h.closed k hk s hs t ht
    rooted := by
      intro k hk
      rcases List.mem_cons.1 hk with rfl | hk
      · exact .inl (List.mem_singleton.2 rfl)
      · rcases h.rooted k hk with e | ⟨pre, post, rfl, p, hp, e⟩
        · obtain ⟨pre, post, rfl⟩ := List.append_of_mem hk
          exact .inr ⟨l :: pre, post, rfl, l, List.mem_cons_self, e⟩
        · exact .inr ⟨l :: pre, post, rfl, p, List.mem_cons_of_mem _ hp, e⟩
    least := by
      intro P hP hb k hk
      have hl' : P l := hb l (List.mem_singleton.2 rfl) hl
      rcases List.mem_cons.1 hk with rfl | hk
      · exact hl'
      · exact h.least P hP (fun t ht => hP l t hl' ht) k hk
    back := by
      intro hb k hk t ht e
      rcases List.mem_cons.1 hk with rfl | hk
      · rcases (hw t).1 (h.covers t e t (inRange?_eq_some.2 ⟨rfl, ht⟩)) with hsaw | hmem
        · by_cases hd : t ∈ v.done
          · exact .inl ⟨[], w.done, rfl, h.done ▸ List.mem_append_right _ hd⟩
          · exact .inr (hb t hsaw hd k (List.mem_singleton.2 rfl))
        · rcases List.mem_cons.1 hmem with rfl | hmem
          · exact .inr .refl
          · exact .inl ⟨[], w.done, rfl, h.done ▸ List.mem_append_left _ hmem⟩
      · -- The block itself and whatever was being searched before lead to its successors.
        have hb' : ∀ a, (v.mark l).Saw a → a ∉ (v.mark l).done → ∀ j : Label, (j : Int) ∈ succs l →
            Leads succs a j := by
          intro a ha hnd j hj
          rcases (hmark a).1 ha with ha | rfl
          · exact (hb a ha hnd l (List.mem_singleton.2 rfl)).tail hj
          · exact .single hj
        rcases h.back hb' k hk t ht e with ⟨pre, post, hdone, hpost⟩ | hlead
        · exact .inl ⟨l :: pre, post, congrArg (l :: ·) hdone, hpost⟩
        · exact .inr hlead }

theorem unseen_subset (h : ∀ l, v.Saw l → w.Saw l) : unseen n w ⊆ unseen n v := by
  intro l hl
  simp only [unseen, Finset.mem_filter] at hl ⊢
  exact ⟨hl.1, fun hs => hl.2 (h l hs)⟩

theorem card_unseen_mark (hl : l < n) (hsize : v.seen.size = n) (hns : ¬ v.Saw l) :
    (unseen n (v.mark l)).card < (unseen n v).card := by
  have hmark := fun k => v.saw_mark (k := k) (hl.trans_eq hsize.symm)
  refine Finset.card_lt_card (Finset.ssubset_iff_subset_ne.2
    ⟨unseen_subset fun k hk => (hmark k).2 (.inl hk), fun he => ?_⟩)
  have hmem : l ∈ unseen n v := Finset.mem_filter.2 ⟨Finset.mem_range.2 hl, hns⟩
  rw [← he] at hmem
  exact (Finset.mem_filter.1 hmem).2 ((hmark l).2 (.inr rfl))

theorem depthFirst_cons (depth : Nat) (s : Int) (ss : List Int) (v : Visit) :
    depthFirst n succs (depth + 1) (s :: ss) v =
      depthFirst n succs (depth + 1) ss (depthFirst n succs (depth + 1) [s] v) := rfl

theorem depthFirst_skip (h : ∀ l, inRange? n s = some l → v.seen.getD l true = true) :
    depthFirst n succs (depth + 1) [s] v = v := by
  simp only [depthFirst, List.foldl_cons, List.foldl_nil]
  split
  · rfl
  · rename_i l hl
    rw [if_pos (h l hl)]

theorem depthFirst_visit (hl : l < n) (hns : v.seen.getD l true ≠ true) :
    depthFirst n succs (depth + 1) [(l : Int)] v = { depthFirst n succs depth (succs l) (v.mark l) with
        done := l :: (depthFirst n succs depth (succs l) (v.mark l)).done } := by
  simp only [depthFirst, List.foldl_cons, List.foldl_nil, inRange?_eq_some.2 ⟨rfl, hl⟩]
  rw [if_neg hns]
  rfl

/-- A block that is looked at is skipped, or it is seen for the first time. -/
theorem skips_or_visits (hsize : v.seen.size = n) (s : Int) :
    (∀ l, inRange? n s = some l → v.seen.getD l true = true) ∨ ∃ l : Label, s = l ∧ l < n ∧
      v.seen.getD l true ≠ true ∧ ¬ v.Saw l ∧ (unseen n (v.mark l)).card < (unseen n v).card := by
  refine or_iff_not_imp_left.2 fun hskip => ?_
  push Not at hskip
  obtain ⟨l, hl, hns⟩ := hskip
  obtain ⟨rfl, hlt⟩ := inRange?_eq_some.1 hl
  have hns' : ¬ v.Saw l := fun hs => hns ((Visit.getD_seen (hlt.trans_eq hsize.symm)).2 hs)
  exact ⟨l, rfl, hlt, hns, hns', card_unseen_mark hlt hsize hns'⟩

/-- A search that may go at least as deep as there are unseen blocks explores all it is asked for. -/
theorem depthFirst_explored (succs : Label → List Int) (depth : Nat) (blocks : List Int) (v : Visit) (hsize : v.seen.size = n)
    (hdepth : (unseen n v).card ≤ depth) :
    ∃ new, Explored n succs blocks v (depthFirst n succs depth blocks v) new := by
  induction depth generalizing blocks v with
  | zero =>
    refine ⟨[], .nil fun s _ l hl => ?_⟩
    by_contra hns
    have hmem : l ∈ unseen n v := Finset.mem_filter.2 ⟨Finset.mem_range.2 (inRange?_eq_some.1 hl).2, hns⟩
    rw [Finset.card_eq_zero.1 (Nat.le_zero.1 hdepth)] at hmem
    exact absurd hmem (Finset.notMem_empty l)
  | succ depth ih =>
    induction blocks generalizing v with
    | nil => exact ⟨[], .nil (by simp)⟩
    | cons s ss ihs =>
      have hone : ∃ new, Explored n succs [s] v (depthFirst n succs (depth + 1) [s] v) new := by
        rcases skips_or_visits hsize s with hskip | ⟨l, rfl, hlt, hns, hns', hcard⟩
        · rw [depthFirst_skip hskip]
          refine ⟨[], .nil fun t ht l hl => ?_⟩
          rw [List.mem_singleton.1 ht] at hl
          exact (Visit.getD_seen ((inRange?_eq_some.1 hl).2.trans_eq hsize.symm)).1 (hskip l hl)
        · rw [depthFirst_visit hlt hns]
          obtain ⟨new, h⟩ := ih (succs l) (v.mark l) (by simp [Visit.mark, hsize]) (by omega)
          exact ⟨l :: new, h.finish hlt hsize hns'⟩
      obtain ⟨new, h⟩ := hone
      have hcard := Finset.card_le_card (unseen_subset (n := n) fun l hl => (h.seen l).2 (.inl hl))
      obtain ⟨new', h'⟩ := ihs _ (h.size.trans hsize) (hcard.trans hdepth)
      exact ⟨new' ++ new, h.cons h'⟩

/-! ## The search from the entry -/

/-- What is known of the list of blocks that a search from the entry finishes. -/
structure Order (succs : Label → List Int) (n : Nat) (rpo : List Label) : Prop where
  nodup : rpo.Nodup
  lt : ∀ l ∈ rpo, l < n
  mem : ∀ l, l ∈ rpo ↔ Reaches succs l
  head : rpo.head? = some entry
  after : ∀ l ∈ rpo, l ≠ entry → ∃ pre post, rpo = pre ++ l :: post ∧ ∃ p ∈ pre, Edge succs p l
  back : ∀ l ∈ rpo, ∀ t, Edge succs l t →
    (∃ pre post, rpo = pre ++ l :: post ∧ t ∈ post) ∨ Leads succs t l

theorem unseen_card_le (v : Visit) : (unseen n v).card ≤ n :=
  (Finset.card_filter_le _ _).trans_eq (Finset.card_range n)

/-- The search marks the entry, goes on with its successors and then finishes it. -/
theorem explore_succ (succs : Label → List Int) (k : Nat) {v : Visit}
    (hv : v = ⟨Array.replicate (k + 1) false, []⟩) : v.seen.size = k + 1 ∧ ¬ v.Saw entry ∧
      (unseen (k + 1) (v.mark entry)).card ≤ k ∧ explore (k + 1) succs =
        { depthFirst (k + 1) succs k (succs entry) (v.mark entry) with
          done := entry :: (depthFirst (k + 1) succs k (succs entry) (v.mark entry)).done } := by
  have hsize : v.seen.size = k + 1 := by simp [hv]
  have hns : ¬ v.Saw entry := by simp [hv, Visit.Saw, entry]
  refine ⟨hsize, hns, Nat.le_of_lt_succ ((card_unseen_mark k.succ_pos hsize hns).trans_le (unseen_card_le v)), ?_⟩
  subst hv
  exact depthFirst_visit k.succ_pos (by simp [entry])

theorem explore_explored (succs : Label → List Int) (hn : 0 < n) :
    ∃ new, (explore n succs).done = entry :: new ∧
      Explored n succs [(entry : Int)] ⟨Array.replicate n false, []⟩ (explore n succs) (entry :: new) := by
  obtain ⟨k, rfl⟩ : ∃ k, n = k + 1 := ⟨n - 1, by omega⟩
  obtain ⟨hsize, hns, hcard, hvisit⟩ := explore_succ succs k rfl
  obtain ⟨new, h⟩ := depthFirst_explored succs k (succs entry) _ (by simp [Visit.mark]) hcard
  have hf := h.finish hn hsize hns
  exact ⟨new, hvisit ▸ hf.done.trans (List.append_nil _), hvisit ▸ hf⟩

/-- The search sees the entry and what follows the blocks that it sees, and nothing else. -/
theorem explore_closed (succs : Label → List Int) (hn : 0 < n) : (explore n succs).Saw entry ∧
    (∀ a b, (explore n succs).Saw a → Edge succs a b → b < n → (explore n succs).Saw b) ∧
    ∀ P : Label → Prop, P entry → (∀ a b, P a → Edge succs a b → b < n → P b) →
      ∀ l, (explore n succs).Saw l → P l := by
  obtain ⟨new, -, h⟩ := explore_explored succs hn
  have hsaw : ∀ l, (explore n succs).Saw l ↔ l ∈ entry :: new := by
    intro l
    rw [h.seen]
    simp [Visit.Saw, Array.getElem?_replicate]
  refine ⟨(hsaw _).2 List.mem_cons_self, fun a b ha e hb => ?_, fun P hentry hstep l hl => ?_⟩
  · exact h.closed a ((hsaw a).1 ha) _ e b (inRange?_eq_some.2 ⟨rfl, hb⟩)
  · refine h.least P hstep (fun k hk _ => ?_) l ((hsaw l).1 hl)
    rwa [Int.natCast_inj.1 (List.mem_singleton.1 hk)]

theorem explore_saw_iff (hn : 0 < n) (hr : InRange n succs) (l : Label) :
    (explore n succs).Saw l ↔ Reaches succs l := by
  obtain ⟨hentry, hclosed, hleast⟩ := explore_closed succs hn
  refine ⟨hleast _ reaches_entry (fun a b ha e _ => ha.step e) l, ?_⟩
  rintro ⟨vs, hvs⟩
  induction hvs with
  | entry => exact hentry
  | @step vs a b hvs e ih => exact hclosed a b ih e (Int.ofNat_lt.1 (hr a ⟨vs, hvs⟩ _ e).2)

/-- With more blocks and more edges no less is seen. -/
theorem explore_mono {n' : Nat} {succs' : Label → List Int} (hn : 0 < n) (hle : n ≤ n')
    (hsub : ∀ a b, Edge succs a b → Edge succs' a b) (h : (explore n succs).Saw l) :
    (explore n' succs').Saw l := by
  obtain ⟨hentry, hclosed, -⟩ := explore_closed succs' (hn.trans_le hle)
  exact (explore_closed succs hn).2.2 _ hentry
    (fun a b ha e hb => hclosed a b ha (hsub a b e) (hb.trans_le hle)) l h

/-- Successors are in range if those of the blocks that the search has seen are. -/
theorem inRange_of_saw (hn : 0 < n)
    (h : ∀ l, (explore n succs).Saw l → ∀ s ∈ succs l, 0 ≤ s ∧ s < n) : InRange n succs := by
  obtain ⟨hentry, hclosed, -⟩ := explore_closed succs hn
  suffices hsaw : ∀ vs l, Trail succs vs l → (explore n succs).Saw l from
    fun l ⟨vs, hvs⟩ => h l (hsaw vs l hvs)
  intro vs l hvs
  induction hvs with
  | entry => exact hentry
  | @step vs a b hvs e ih => exact hclosed a b ih e (Int.ofNat_lt.1 (h a ih _ e).2)

/-- The finished blocks are the reached ones, the entry first and every other block after one of its
predecessors. An edge goes forward or lies on a cycle. -/
theorem explore_order (hn : 0 < n) (hr : InRange n succs) : Order succs n (explore n succs).done := by
  obtain ⟨new, hdone, h⟩ := explore_explored succs hn
  have hmem : ∀ l, l ∈ entry :: new ↔ Reaches succs l := by
    intro l
    rw [← explore_saw_iff hn hr, h.seen]
    simp [Visit.Saw, Array.getElem?_replicate]
  rw [hdone]
  exact {
    nodup := h.nodup
    lt := fun l hl => (h.fresh l hl).1
    mem := hmem
    head := rfl
    after := fun l hl hne => (h.rooted l hl).resolve_left fun he =>
      hne (Int.natCast_inj.1 (List.mem_singleton.1 he))
    back := fun l hl t e => by
      have ht : t < n := Int.ofNat_lt.1 (hr l ((hmem l).1 hl) _ e).2
      rw [← hdone]
      refine h.back (fun a ha => ?_) l hl t ht e
      simp [Visit.Saw, Array.getElem?_replicate] at ha }

end Codesmith.Graph
