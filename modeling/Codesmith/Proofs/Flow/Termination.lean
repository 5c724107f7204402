import Codesmith.Proofs.Flow.Build

/-!
# The loops behind a graph end

`Graph.build` bounds the depth of its search, the number of its rounds and the length of every climb.
Here the same loops stand without bounds: a search with a stack of blocks whose successors are not all
looked at, climbs to a common ancestor that go on until both sides meet, and rounds until nothing
changes. A loop ends if finitely many turns lead to its result. All these loops end, none of their
turns is a fault, and what they find is what `Graph.build` computes.
-/

namespace Codesmith.Graph

variable {n : Nat} {succs : Label → List Int} {rpo : List Label} {σ α : Type}
variable {b : Label} {ss : List Int} {v : Visit} {rest : List (Label × List Int)}
  {idom : Array (Option Label)}

/-- A loop ends with a result after finitely many turns. A turn goes on with another state, gives the
result, or is a fault. -/
inductive LoopEnds (turn : σ → Except Fault (σ ⊕ α)) : σ → α → Prop
  | stop {s : σ} {a : α} : turn s = .ok (.inr a) → LoopEnds turn s a
  | next {s t : σ} {a : α} : turn s = .ok (.inl t) → LoopEnds turn t a → LoopEnds turn s a

/-! ## The search -/

/-- A search that is going on: what was visited, and the blocks on the way to the current one, latest
first, each with the successors that are not looked at yet. -/
structure Pending where
  visit : Visit
  stack : List (Label × List Int)

/-- Look at the next successor of the latest block, or finish that block. -/
def searchTurn (n : Nat) (succs : Label → List Int) (p : Pending) : Except Fault (Pending ⊕ Visit) :=
  match p.stack with
  | [] => .ok (.inr p.visit)
  | (b, []) :: rest => .ok (.inl ⟨{ p.visit with done := b :: p.visit.done }, rest⟩)
  | (b, s :: ss) :: rest =>
    match inRange? n s with
    | none => .ok (.inl ⟨p.visit, (b, ss) :: rest⟩)
    | some l =>
      if p.visit.seen.getD l true then .ok (.inl ⟨p.visit, (b, ss) :: rest⟩)
      else .ok (.inl ⟨p.visit.mark l, (l, succs l) :: (b, ss) :: rest⟩)

/-- The search before the first turn. -/
def searchStart (n : Nat) (succs : Label → List Int) : Pending :=
  ⟨(⟨Array.replicate n false, []⟩ : Visit).mark entry, [(entry, succs entry)]⟩

theorem searchTurn_skip {s : Int} (h : ∀ l, inRange? n s = some l → v.seen.getD l true = true) :
    searchTurn n succs ⟨v, (b, s :: ss) :: rest⟩ = .ok (.inl ⟨v, (b, ss) :: rest⟩) := by
  simp only [searchTurn]
  split
  · rfl
  · rename_i l hl
    rw [if_pos (h l hl)]

theorem searchTurn_visit {l : Label} (hl : l < n) (hns : v.seen.getD l true ≠ true) :
    searchTurn n succs ⟨v, (b, (l : Int) :: ss) :: rest⟩ =
      .ok (.inl ⟨v.mark l, (l, succs l) :: (b, ss) :: rest⟩) := by
  simp only [searchTurn, inRange?_eq_some.2 ⟨rfl, hl⟩]
  rw [if_neg hns]

/-- The turns until the latest block is finished visit what a bounded search of its successors does. -/
theorem searchEnds_of_finished (succs : Label → List Int) (depth : Nat) {blocks : List Int}
    (hsize : v.seen.size = n) (hdepth : (unseen n v).card ≤ depth) {w : Visit}
    (h : LoopEnds (searchTurn n succs) ⟨{ depthFirst n succs depth blocks v with
          done := b :: (depthFirst n succs depth blocks v).done }, rest⟩ w) :
    LoopEnds (searchTurn n succs) ⟨v, (b, blocks) :: rest⟩ w := by
  induction depth generalizing blocks v b rest with
  | zero =>
    -- Every block is seen, so all successors are skipped.
    induction blocks with
    | nil => exact .next rfl h
    | cons s ss ih =>
      refine .next (searchTurn_skip fun l hl => ?_) (ih h)
      by_contra hns
      have hlt := (inRange?_eq_some.1 hl).2
      have hmem : l ∈ unseen n v := Finset.mem_filter.2
        ⟨Finset.mem_range.2 hlt, fun hs => hns ((Visit.getD_seen (hlt.trans_eq hsize.symm)).2 hs)⟩
      rw [Finset.card_eq_zero.1 (Nat.le_zero.1 hdepth)] at hmem
      exact absurd hmem (Finset.notMem_empty l)
  | succ depth ih =>
    induction blocks generalizing v with
    | nil => exact .next rfl h
    | cons s ss ihs =>
      rw [depthFirst_cons] at h
      rcases skips_or_visits hsize s with hskip | ⟨l, rfl, hlt, hns, -, hcard⟩
      · rw [depthFirst_skip hskip] at h
        exact .next (searchTurn_skip hskip) (ihs hsize hdepth h)
      have hmark : (v.mark l).seen.size = n := by simp [Visit.mark, hsize]
      -- The block is finished first, and the others are looked at from there.
      obtain ⟨new, hnew⟩ := depthFirst_explored succs depth (succs l) (v.mark l) hmark (by omega)
      rw [depthFirst_visit hlt hns] at h
      refine .next (searchTurn_visit hlt hns) (ih hmark (by omega) (ihs ?_ ?_ h))
      · exact hnew.size.trans hmark
      · have hsub : unseen n { depthFirst n succs depth (succs l) (v.mark l) with
            done := l :: (depthFirst n succs depth (succs l) (v.mark l)).done } ⊆
              unseen n (v.mark l) := unseen_subset fun k hk => (hnew.seen k).2 (.inl hk)
        exact ((Finset.card_le_card hsub).trans hcard.le).trans hdepth

/-- The search from the entry ends with what `explore` finds. -/
theorem searchEnds (succs : Label → List Int) (h0 : 0 < n) :
    LoopEnds (searchTurn n succs) (searchStart n succs) (explore n succs) := by
  obtain ⟨k, rfl⟩ : ∃ k, n = k + 1 := ⟨n - 1, by omega⟩
  obtain ⟨-, -, hcard, hvisit⟩ := explore_succ succs k rfl
  refine searchEnds_of_finished succs k (by simp [Visit.mark]) hcard ?_
  rw [hvisit]
  exact .stop rfl

/-! ## Common ancestors -/

/-- Compare the places of two blocks, and let the later one climb. Blocks at the same place make no
progress. -/
def meetTurn (order : Array (Option Nat)) (idom : Array (Option Label)) (p : Label × Label) :
    Except Fault ((Label × Label) ⊕ Label) :=
  if p.1 = p.2 then .ok (.inr p.1)
  else do
    let i ← placeOf order p.1
    let j ← placeOf order p.2
    if j < i then return .inl (← idomOf idom p.1, p.2)
    else if i < j then return .inl (p.1, ← idomOf idom p.2)
    else return .inl p

/-- The climb of two linked blocks ends where the bounded climb does. -/
theorem Links.meetEnds (o : Order succs n rpo) (k : Links succs n rpo idom) (steps : Nat) {a c : Label}
    (ha : (up idom a).isSome) (hb : (up idom b).isSome) (hsteps : rpo.idxOf a + rpo.idxOf b ≤ steps)
    (h : intersect (places n rpo) idom steps a b = .ok c) :
    LoopEnds (meetTurn (places n rpo) idom) (a, b) c := by
  induction steps generalizing a b with
  | zero =>
    have hab : a = b := o.eq_of_idxOf (k.mem a ha) (by omega)
    obtain rfl : a = c := Except.ok.inj h
    exact .stop (by rw [meetTurn, if_pos hab])
  | succ steps ih =>
    rw [intersect] at h
    by_cases hab : a = b
    · rw [if_pos hab] at h
      obtain rfl : a = c := Except.ok.inj h
      exact .stop (by rw [meetTurn, if_pos hab])
    rw [if_neg hab, o.placeOf_eq (k.mem a ha), o.placeOf_eq (k.mem b hb)] at h
    simp only [bind, Except.bind] at h
    have hturn : meetTurn (places n rpo) idom (a, b) =
        if rpo.idxOf b < rpo.idxOf a then (idomOf idom a).map fun d => .inl (d, b)
        else if rpo.idxOf a < rpo.idxOf b then (idomOf idom b).map fun d => .inl (a, d)
        else .ok (.inl (a, b)) := by
      rw [meetTurn, if_neg hab]
      simp only [o.placeOf_eq (k.mem a ha), o.placeOf_eq (k.mem b hb), bind, Except.bind, pure, Except.pure]
      split_ifs <;> rfl
    by_cases hlt : rpo.idxOf b < rpo.idxOf a
    · obtain ⟨-, d, hd, hdlt, hds⟩ := k.climb o ha (Nat.zero_lt_of_lt hlt)
      rw [if_pos hlt, Links.idomOf_eq hd] at h
      refine .next (t := (d, b)) ?_ (ih hds hb (by omega) h)
      rw [hturn, if_pos hlt, Links.idomOf_eq hd]
      rfl
    · have hlt' : rpo.idxOf a < rpo.idxOf b :=
        lt_of_le_of_ne (Nat.le_of_not_lt hlt) fun he => hab (o.eq_of_idxOf (k.mem a ha) he)
      obtain ⟨-, d, hd, hdlt, hds⟩ := k.climb o hb (Nat.zero_lt_of_lt hlt')
      rw [if_neg hlt, Links.idomOf_eq hd] at h
      refine .next (t := (a, d)) ?_ (ih ha hds (by omega) h)
      rw [hturn, if_neg hlt, if_pos hlt', Links.idomOf_eq hd]
      rfl

/-- The common ancestor of the linked blocks of a list and a block found before, by climbs that end. -/
inductive Chosen (order : Array (Option Nat)) (idom : Array (Option Label)) :
    List Label → Option Label → Option Label → Prop
  | done (d : Option Label) : Chosen order idom [] d d
  | skip {p : Label} {ps : List Label} {d r : Option Label} : up idom p = none →
      Chosen order idom ps d r → Chosen order idom (p :: ps) d r
  | first {p : Label} {ps : List Label} {r : Option Label} : (up idom p).isSome →
      Chosen order idom ps (some p) r → Chosen order idom (p :: ps) none r
  | meet {p d e : Label} {ps : List Label} {r : Option Label} : (up idom p).isSome →
      LoopEnds (meetTurn order idom) (p, d) e → Chosen order idom ps (some e) r →
      Chosen order idom (p :: ps) (some d) r

theorem Links.chosen (o : Order succs n rpo) (k : Links succs n rpo idom) {ps : List Label}
    {d r : Option Label} (hd : ∀ e ∈ d, (up idom e).isSome) (h : candidate (places n rpo) idom ps d = .ok r) :
    Chosen (places n rpo) idom ps d r := by
  induction ps generalizing d with
  | nil =>
    obtain rfl : d = r := Except.ok.inj h
    exact .done d
  | cons p ps ih =>
    cases hp : up idom p with
    | none =>
      rw [candidate_skip hp] at h
      exact .skip hp (ih hd h)
    | some e =>
      have hps : (up idom p).isSome := hp ▸ rfl
      cases d with
      | none =>
        rw [candidate_first hps] at h
        exact .first hps (ih (by simpa using hps) h)
      | some b =>
        have hb := hd b rfl
        have hlt := o.idxOf_lt (k.mem p hps)
        have hlt' := o.idxOf_lt (k.mem b hb)
        have hsteps : rpo.idxOf p + rpo.idxOf b ≤ 2 * (places n rpo).size := by
          rw [Order.size_places]
          omega
        obtain ⟨c, hc, hpc, -, -⟩ := k.intersect_ok o _ hps hb hsteps
        rw [candidate_meet hps hc] at h
        exact .meet hps (k.meetEnds o _ hps hb hsteps hc) (ih (by simpa using (k.above hpc hps).1) h)

/-! ## Rounds -/

/-- One round over the blocks of a list, and whether it changed anything. Every block finds a candidate,
at an earlier place than its own. -/
inductive Turns (preds : Array (List Label)) (order : Array (Option Nat)) :
    List Label → Array (Option Label) → Bool → Array (Option Label) → Bool → Prop
  | done (idom : Array (Option Label)) (changed : Bool) : Turns preds order [] idom changed idom changed
  | turn {b c : Label} {bs : List Label} {i j : Nat} {idom idom' : Array (Option Label)}
      {changed changed' : Bool} :
      Chosen order idom (preds.getD b []) none (some c) →
      placeOf order c = .ok i → placeOf order b = .ok j → i < j →
      Turns preds order bs (idom.setIfInBounds b (some c)) (changed || decide (up idom b ≠ some c))
        idom' changed' →
      Turns preds order (b :: bs) idom changed idom' changed'

/-- Rounds go on until one changes nothing. -/
inductive RoundsEnd (preds : Array (List Label)) (order : Array (Option Nat)) (blocks : List Label) :
    Array (Option Label) → Array (Option Label) → Prop
  | stop {idom idom' : Array (Option Label)} : Turns preds order blocks idom false idom' false →
      RoundsEnd preds order blocks idom idom'
  | again {idom idom' idom'' : Array (Option Label)} : Turns preds order blocks idom false idom' true →
      RoundsEnd preds order blocks idom' idom'' → RoundsEnd preds order blocks idom idom''

/-- Immediate dominators are unique. -/
theorem Settled.up_eq (o : Order succs n rpo) {idom' : Array (Option Label)} (h : Settled succs n rpo idom)
    (h' : Settled succs n rpo idom') {d d' : Label} (hb : b ≠ entry) (hd : up idom b = some d)
    (hd' : up idom' b = some d') : d = d' := by
  have hmem := h.links.mem b (hd ▸ rfl)
  have hreach := (o.mem b).1 hmem
  have hne : ∀ {x}, rpo.idxOf x < rpo.idxOf b → x ≠ b := fun hlt he => by rw [he] at hlt; omega
  have hdb := h.dom b d hd
  have hdb' := h'.dom b d' hd'
  have hdd' := h'.links.sound b d' hb hd' d (hne (h.links.lower b d hb hd).1) hdb
  have hd'd := h.links.sound b d hb hd d' (hne (h'.links.lower b d' hb hd').1) hdb'
  exact hdd'.antisymm hd'd (hdb'.reaches hreach)

section Rounds

variable (o : Order succs n rpo) {preds : Array (List Label)} (hp : HoldsPreds succs preds)
variable {t : Nat} {pre bs : List Label} {idom idom' : Array (Option Label)} {changed : Bool}
include o hp

/-- A round as `round` makes it: every candidate is earlier than its block. -/
theorem Passed.turns {changed' : Bool} (heq : rpo = pre ++ bs) (hpre : entry ∈ pre)
    (h : Passed succs n rpo t pre idom)
    (hround : round preds (places n rpo) bs idom changed = .ok (idom', changed')) :
    Turns preds (places n rpo) bs idom changed idom' changed' := by
  induction bs generalizing pre idom changed with
  | nil =>
    obtain ⟨rfl, rfl⟩ := Prod.mk.inj (Except.ok.inj hround)
    exact .done idom changed
  | cons b bs ih =>
    obtain ⟨c, hc, h'⟩ := h.turn o hp heq hpre
    obtain ⟨hmem, hbpre⟩ := o.next heq
    have hb : b < idom.size := h.links.size ▸ o.lt b hmem
    have hne : b ≠ entry := fun he => hbpre (he ▸ hpre)
    obtain ⟨hlt, hcs⟩ := h'.links.lower b c hne (by rw [up_set hb, if_pos rfl])
    rw [round_cons hb hc] at hround
    exact .turn (h.links.chosen o (by simp) hc) (o.placeOf_eq (h'.links.mem c hcs)) (o.placeOf_eq hmem)
      hlt (ih (by simpa using heq) (List.mem_append_left _ hpre) h' hround)

/-- A round on links that lead to dominators already changes nothing. -/
theorem Passed.round_settled (h0 : 0 < n) (ht : n ≤ t) (heq : rpo = pre ++ bs) (hpre : entry ∈ pre)
    (h : Passed succs n rpo t pre idom)
    (hround : round preds (places n rpo) bs idom false = .ok (idom', changed)) : changed = false := by
  induction bs generalizing pre idom with
  | nil => exact (Prod.mk.inj (Except.ok.inj hround)).2.symm
  | cons b bs ih =>
    obtain ⟨c, hc, h'⟩ := h.turn o hp heq hpre
    obtain ⟨hmem, hbpre⟩ := o.next heq
    have hb : b < idom.size := h.links.size ▸ o.lt b hmem
    have hne : b ≠ entry := fun he => hbpre (he ▸ hpre)
    obtain ⟨d, hd⟩ := Option.isSome_iff_exists.1 (h.full (h0.trans_le ht) b hmem)
    obtain rfl : d = c := (h.settled o h0 ht).up_eq o (h'.settled o h0 ht) hne hd
      (by rw [up_set hb, if_pos rfl])
    rw [round_cons hb hc] at hround
    simp only [hd, ne_eq, not_true_eq_false, decide_false, Bool.or_self] at hround
    exact ih (by simpa using heq) (List.mem_append_left _ hpre) h' hround

/-- The rounds end with what the bounded rounds find: after as many rounds as there are blocks, one more
changes nothing. -/
theorem Passed.roundsEnd (h0 : 0 < n) (rounds : Nat) (ht : n ≤ t + rounds)
    (h : Passed succs n rpo t [entry] idom)
    (hsolve : solve preds (places n rpo) rpo.tail (rounds + 1) idom = .ok idom') :
    RoundsEnd preds (places n rpo) rpo.tail idom idom' := by
  obtain ⟨ls, hls⟩ := List.head?_eq_some_iff.1 o.head
  have heq : rpo = [entry] ++ rpo.tail := by rw [hls]; rfl
  have hpre : entry ∈ [entry] := List.mem_singleton.2 rfl
  induction rounds generalizing t idom with
  | zero =>
    obtain ⟨idom1, changed, hr, -⟩ := h.round_ok o hp heq hpre false
    obtain rfl := h.round_settled o hp h0 ht heq hpre hr
    simp only [solve, hr, bind, Except.bind] at hsolve
    obtain rfl : idom1 = idom' := Except.ok.inj hsolve
    exact .stop (h.turns o hp heq hpre hr)
  | succ rounds ih =>
    obtain ⟨idom1, changed, hr, h'⟩ := h.round_ok o hp heq hpre false
    have hturns := h.turns o hp heq hpre hr
    rw [solve, hr] at hsolve
    simp only [bind, Except.bind] at hsolve
    cases changed with
    | true => exact .again hturns (ih (by omega) h'.next hsolve)
    | false =>
      obtain rfl : idom1 = idom' := Except.ok.inj hsolve
      exact .stop hturns

end Rounds

/-! ## Dominance -/

/-- Compare two blocks, and let the second climb. -/
def climbTurn (g : Graph) (a b : Label) : Except Fault (Label ⊕ Bool) :=
  if a = b then .ok (.inr true)
  else if b = entry then .ok (.inr false)
  else match up g.idom b with
    | none => .ok (.inr false)
    | some d => .ok (.inl d)

/-- The climb from a block ends where the bounded climb does. -/
theorem Links.climbEnds {g : Graph} (k : Links succs n g.rpo g.idom) (a : Label) (steps : Nat)
    (hsteps : b ∈ g.rpo → g.rpo.idxOf b < steps) (hpos : 0 < steps) :
    LoopEnds (climbTurn g a) b (g.climbs a steps b) := by
  induction steps generalizing b with
  | zero => exact absurd hpos (Nat.lt_irrefl 0)
  | succ steps ih =>
    rw [climbs]
    by_cases hab : a = b
    · rw [if_pos hab]
      exact .stop (by rw [climbTurn, if_pos hab])
    rw [if_neg hab]
    by_cases hb : b = entry
    · rw [if_pos hb]
      exact .stop (by rw [climbTurn, if_neg hab, if_pos hb])
    rw [if_neg hb]
    cases hd : up g.idom b with
    | none =>
      rw [show g.idom[b]?.join = none from hd]
      exact .stop (by rw [climbTurn, if_neg hab, if_neg hb, hd])
    | some d =>
      obtain ⟨hlt, -⟩ := k.lower b d hb hd
      have hle := hsteps (k.mem b (hd ▸ rfl))
      rw [show g.idom[b]?.join = some d from hd]
      refine .next (t := d) ?_ (ih (fun _ => by omega) (by omega))
      rw [climbTurn, if_neg hab, if_neg hb, hd]

/-- A graph is always found, and no loop on the way to it goes on forever or meets a fault: the search
with a stack ends, the rounds and every climb to a common ancestor in them end, with candidates at
earlier places than their blocks, and dominance is decided for every two blocks. -/
theorem graph_loops_end (h0 : 0 < n) (h : ∀ l < n, ∀ s ∈ succs l, 0 ≤ s ∧ s < n) :
    ∃ g, build n succs = .ok g ∧
      (∃ v, LoopEnds (searchTurn n succs) (searchStart n succs) v ∧ g.rpo = v.done) ∧
      RoundsEnd g.preds g.order g.rpo.tail
        ((Array.replicate n none).setIfInBounds entry (some entry)) g.idom ∧
      ∀ a < n, ∀ b < n, LoopEnds (climbTurn g a) b (g.dominates a b) := by
  have hr := inRange_of_labels h0 h
  obtain ⟨g, hg, hbuilt⟩ := exists_built h0 hr
  have o : Order succs n g.rpo := hbuilt.rpo ▸ explore_order h0 hr
  have hset := hbuilt.settled h0 o
  refine ⟨g, hg, ⟨_, searchEnds succs h0, hbuilt.rpo⟩, ?_, fun a _ b hb => ?_⟩
  · have hsolved := hbuilt.solved
    rw [hbuilt.order] at hsolved ⊢
    exact (passed_start o h0).roundsEnd o (hbuilt.holdsPreds o) h0 (n * n) (by nlinarith) hsolved
  · refine hset.links.climbEnds a _ (fun hmem => ?_) ?_
    · rw [hset.links.size]
      exact o.idxOf_lt hmem
    · rw [hset.links.size]
      exact h0

theorem graph_loops_end_tangle : (∀ l < 5, ∀ s ∈ tangle l, 0 ≤ s ∧ s < 5) ∧ ∃ g, build 5 tangle = .ok g ∧
      (∃ v, LoopEnds (searchTurn 5 tangle) (searchStart 5 tangle) v ∧ g.rpo = v.done) ∧
      RoundsEnd g.preds g.order g.rpo.tail
        ((Array.replicate 5 none).setIfInBounds entry (some entry)) g.idom ∧
      LoopEnds (climbTurn g 4) 3 (g.dominates 4 3) := by
  have hrange : ∀ l < 5, ∀ s ∈ tangle l, 0 ≤ s ∧ s < 5 := by decide
  obtain ⟨g, hg, hsearch, hrounds, hclimb⟩ := graph_loops_end (by decide) hrange
  exact ⟨hrange, g, hg, hsearch, hrounds, hclimb 4 (by decide) 3 (by decide)⟩

end Codesmith.Graph
