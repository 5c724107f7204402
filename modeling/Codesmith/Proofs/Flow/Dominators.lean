import Codesmith.Proofs.Flow.Search

/-!
# Immediate dominators

`Graph.solve` improves the immediate dominators round after round. Two facts about the links hold at
any time. They lead to earlier blocks, and what strictly dominates a block dominates the block that
it is linked to. A third improves with every round: after `t` rounds the linked block lies on every
trail that goes back fewer than `t` times. As a trail that meets no block twice cannot go back `n`
times, the links are dominators in the end, and `Graph.dominates` decides dominance.
-/

namespace Codesmith.Graph

variable {n : Nat} {succs : Label → List Int} {rpo : List Label}
variable {l a b c d p : Label} {t : Nat} {idom : Array (Option Label)} {order : Array (Option Nat)}
  {pre bs : List Label} {preds : Array (List Label)}

/-! ## Places in reverse postorder -/

theorem foldl_places (rpo : List Label) (k : Nat) (acc : Array (Option Nat)) (hnd : rpo.Nodup)
    (hlt : ∀ l ∈ rpo, l < acc.size) (l : Label) :
    ((rpo.zipIdx k).foldl (fun order p => order.setIfInBounds p.1 (some p.2)) acc)[l]? =
      if l ∈ rpo then some (some (k + rpo.idxOf l)) else acc[l]? := by
  induction rpo generalizing k acc with
  | nil => rfl
  | cons x xs ih =>
    obtain ⟨hx, hnd⟩ := List.nodup_cons.1 hnd
    rw [List.zipIdx_cons, List.foldl_cons, ih (k + 1) _ hnd fun l hl => by
      rw [Array.size_setIfInBounds]
      exact hlt l (List.mem_cons_of_mem _ hl)]
    have hxlt := hlt x List.mem_cons_self
    by_cases hl : x = l
    · subst hl
      simp [hx, hxlt]
    rw [Array.getElem?_setIfInBounds_ne hl, List.idxOf_cons_ne _ hl]
    simp only [List.mem_cons, Ne.symm hl, false_or]
    split
    · congr 2
      omega
    · rfl

section

variable (o : Order succs n rpo)
include o

theorem Order.places_eq (hl : l ∈ rpo) : (places n rpo)[l]? = some (some (rpo.idxOf l)) := by
  rw [places, foldl_places rpo 0 _ o.nodup (by simpa using o.lt), if_pos hl, Nat.zero_add]

theorem Order.join_places_isSome (l : Label) : (places n rpo)[l]?.join.isSome = true ↔ l ∈ rpo := by
  rw [places, foldl_places rpo 0 _ o.nodup (by simpa using o.lt)]
  by_cases hl : l ∈ rpo
  · simp [hl]
  · simp only [hl, if_false, Array.getElem?_replicate]
    split <;> simp

theorem Order.placeOf_eq (hl : l ∈ rpo) : placeOf (places n rpo) l = .ok (rpo.idxOf l) := by
  rw [placeOf, o.places_eq hl]

end

theorem Order.size_places (rpo : List Label) : (places n rpo).size = n := by
  have h : ∀ (ps : List (Label × Nat)) (acc : Array (Option Nat)),
      (ps.foldl (fun order p => order.setIfInBounds p.1 (some p.2)) acc).size = acc.size := by
    intro ps
    induction ps with
    | nil => exact fun _ => rfl
    | cons p ps ih => exact fun acc => (ih _).trans Array.size_setIfInBounds
  rw [places, h, Array.size_replicate]

section

variable (o : Order succs n rpo)
include o

theorem Order.length_le : rpo.length ≤ n := by
  have hsub : rpo ⊆ List.range n := fun l hl => List.mem_range.2 (o.lt l hl)
  exact (o.nodup.subperm hsub).length_le.trans_eq List.length_range

theorem Order.idxOf_lt (hl : l ∈ rpo) : rpo.idxOf l < n :=
  (List.idxOf_lt_length_iff.2 hl).trans_le o.length_le

theorem Order.entry_mem : entry ∈ rpo :=
  (o.mem entry).2 reaches_entry

theorem Order.idxOf_entry : rpo.idxOf entry = 0 := by
  obtain ⟨ls, rfl⟩ := List.head?_eq_some_iff.1 o.head
  exact List.idxOf_cons_self

end

theorem Order.eq_of_idxOf (_ : Order succs n rpo) (ha : a ∈ rpo) (h : rpo.idxOf a = rpo.idxOf b) : a = b :=
  (List.idxOf_inj ha).1 h

section

variable (o : Order succs n rpo)
include o

theorem Order.next (heq : rpo = pre ++ b :: bs) : b ∈ rpo ∧ b ∉ pre := by
  have hnd := o.nodup
  rw [heq] at hnd
  exact ⟨heq ▸ List.mem_append_right _ List.mem_cons_self,
    fun hm => (List.nodup_append.1 hnd).2.2 b hm b List.mem_cons_self rfl⟩

/-- A block of the order other than the entry has an earlier predecessor. -/
theorem Order.earlier (hb : b ∈ rpo) (hne : b ≠ entry) :
    ∃ p ∈ rpo, Edge succs p b ∧ rpo.idxOf p < rpo.idxOf b := by
  obtain ⟨pre, post, heq, p, hp, e⟩ := o.after b hb hne
  have hbpre := (o.next heq).2
  refine ⟨p, heq ▸ List.mem_append_left _ hp, e, ?_⟩
  rw [heq, List.idxOf_append_of_mem hp, List.idxOf_append_of_notMem hbpre]
  exact Nat.lt_add_right _ (List.idxOf_lt_length_iff.2 hp)

/-- A trail leads forward to every block. -/
theorem Order.forward (b : Label) (hb : b ∈ rpo) :
    ∃ vs, Trail succs vs b ∧ ∀ x ∈ vs, rpo.idxOf x ≤ rpo.idxOf b := by
  induction hk : rpo.idxOf b using Nat.strong_induction_on generalizing b with
  | _ k ih =>
    subst hk
    by_cases hne : b = entry
    · subst hne
      exact ⟨_, .entry, fun x hx => by rw [List.mem_singleton.1 hx]⟩
    obtain ⟨p, hp, e, hlt⟩ := o.earlier hb hne
    obtain ⟨vs, hvs, hle⟩ := ih _ hlt p hp rfl
    refine ⟨b :: vs, hvs.step e, fun x hx => ?_⟩
    rcases List.mem_cons.1 hx with rfl | hx
    · exact le_rfl
    · exact (hle x hx).trans hlt.le

theorem Order.idxOf_le_of_dom (hb : b ∈ rpo) (h : Dom succs a b) : rpo.idxOf a ≤ rpo.idxOf b := by
  obtain ⟨vs, hvs, hle⟩ := o.forward b hb
  exact hle a (h vs hvs)

end

/-! ## Trails that go back a limited number of times -/

/-- How often a trail goes to a block that is not later in the order. -/
def retreats (rpo : List Label) : List Label → Nat
  | b :: a :: vs => (if rpo.idxOf b ≤ rpo.idxOf a then 1 else 0) + retreats rpo (a :: vs)
  | _ => 0

theorem retreats_le_cons (b : Label) (vs : List Label) : retreats rpo vs ≤ retreats rpo (b :: vs) := by
  cases vs with
  | nil => exact Nat.zero_le _
  | cons a vs => exact Nat.le_add_left _ _

theorem retreats_suffix {us vs : List Label} (h : us <:+ vs) : retreats rpo us ≤ retreats rpo vs := by
  obtain ⟨ws, rfl⟩ := h
  induction ws with
  | nil => exact le_rfl
  | cons w ws ih => exact ih.trans (retreats_le_cons w _)

theorem retreats_lt_length (b : Label) (vs : List Label) : retreats rpo (b :: vs) < (b :: vs).length := by
  induction vs generalizing b with
  | nil => exact Nat.zero_lt_one
  | cons a vs ih =>
    have := ih a
    simp only [retreats, List.length_cons] at this ⊢
    split <;> omega

/-- Every trail to `b` that goes back fewer than `t` times has met `a`. -/
def DomUpTo (succs : Label → List Int) (rpo : List Label) (t : Nat) (a b : Label) : Prop :=
  ∀ vs, Trail succs vs b → retreats rpo vs < t → a ∈ vs

theorem DomUpTo.refl (t : Nat) (b : Label) : DomUpTo succs rpo t b b :=
  fun _ h _ => h.mem_self

theorem DomUpTo.trans (hab : DomUpTo succs rpo t a b) (hbc : DomUpTo succs rpo t b c) :
    DomUpTo succs rpo t a c := by
  intro vs h ht
  obtain ⟨us, hus, hsuf⟩ := h.cut (hbc vs h ht)
  exact hsuf.subset (hab us hus ((retreats_suffix hsuf).trans_lt ht))

theorem DomUpTo.mono {s : Nat} (hst : s ≤ t) (h : DomUpTo succs rpo t a b) : DomUpTo succs rpo s a b :=
  fun vs hvs ht => h vs hvs (ht.trans_le hst)

/-- One more round suffices for one more way back: an edge forward keeps the count, and an edge back
leaves a trail with a smaller one. -/
theorem DomUpTo.of_preds (hb : b ≠ entry)
    (hf : ∀ p, Reaches succs p → Edge succs p b → rpo.idxOf p < rpo.idxOf b → DomUpTo succs rpo (t + 1) a p)
    (hr : ∀ p, Reaches succs p → Edge succs p b → DomUpTo succs rpo t a p) :
    DomUpTo succs rpo (t + 1) a b := by
  intro vs h ht
  cases h with
  | entry => exact absurd rfl hb
  | @step us p _ hp e =>
    refine List.mem_cons_of_mem _ ?_
    obtain ⟨ws, rfl⟩ := hp.eq_cons
    by_cases hlt : rpo.idxOf p < rpo.idxOf b
    · exact hf p ⟨_, hp⟩ e hlt _ hp ((retreats_le_cons b _).trans_lt ht)
    · refine hr p ⟨_, hp⟩ e _ hp ?_
      simp only [retreats, Nat.le_of_not_lt hlt, if_true] at ht
      omega

theorem Order.dom_of_domUpTo (o : Order succs n rpo) (ht : n ≤ t) (h : DomUpTo succs rpo t a b) :
    Dom succs a b := by
  intro vs hvs
  obtain ⟨us, hus, hnd, hsub⟩ := hvs.simple
  obtain ⟨ws, rfl⟩ := hus.eq_cons
  have hin : b :: ws ⊆ rpo := fun x hx => (o.mem x).2 (hus.reaches hx)
  have hlen : (b :: ws).length ≤ n := (hnd.subperm hin).length_le.trans o.length_le
  exact hsub (h _ hus ((retreats_lt_length b ws).trans_le (hlen.trans ht)))

/-! ## The links -/

/-- The block that a block is linked to. -/
def up (idom : Array (Option Label)) (l : Label) : Option Label :=
  idom[l]?.join

theorem up_set (hb : b < idom.size) (d l : Label) :
    up (idom.setIfInBounds b (some d)) l = if l = b then some d else up idom l := by
  rw [up, Array.getElem?_setIfInBounds]
  by_cases h : b = l
  · subst h
    simp [hb]
  · simp [h, Ne.symm h, up]

/-- What holds of the links at any time. -/
structure Links (succs : Label → List Int) (n : Nat) (rpo : List Label)
    (idom : Array (Option Label)) : Prop where
  size : idom.size = n
  root : up idom entry = some entry
  mem : ∀ b, (up idom b).isSome → b ∈ rpo
  lower : ∀ b d, b ≠ entry → up idom b = some d →
    rpo.idxOf d < rpo.idxOf b ∧ (up idom d).isSome
  sound : ∀ b d, b ≠ entry → up idom b = some d → ∀ a, a ≠ b → Dom succs a b → Dom succs a d

/-- The second block is the first or above it in the tree of links. -/
def Above (idom : Array (Option Label)) : Label → Label → Prop :=
  Relation.ReflTransGen fun b d => up idom b = some d

theorem Links.above (k : Links succs n rpo idom) (h : Above idom b d) (hb : (up idom b).isSome) :
    (up idom d).isSome ∧ rpo.idxOf d ≤ rpo.idxOf b := by
  induction h with
  | refl => exact ⟨hb, le_rfl⟩
  | @tail c d _ hcd ih =>
    by_cases hc : c = entry
    · subst hc
      rw [k.root, Option.some.injEq] at hcd
      exact hcd ▸ ih
    · obtain ⟨hlt, hs⟩ := k.lower c d hc hcd
      exact ⟨hs, hlt.le.trans ih.2⟩

theorem Links.idomOf_eq (h : up idom b = some d) : idomOf idom b = .ok d := by
  rw [up, Option.join_eq_some_iff] at h
  rw [idomOf, h]

/-- A linked block after the first is linked to an earlier one. -/
theorem Links.climb (o : Order succs n rpo) (k : Links succs n rpo idom) (hb : (up idom b).isSome)
    (hlt : 0 < rpo.idxOf b) : b ≠ entry ∧ ∃ d, up idom b = some d ∧ rpo.idxOf d < rpo.idxOf b ∧
      (up idom d).isSome := by
  have hne : b ≠ entry := fun he => by simp [he, o.idxOf_entry] at hlt
  obtain ⟨d, hd⟩ := Option.isSome_iff_exists.1 hb
  exact ⟨hne, d, hd, k.lower b d hne hd⟩

/-- The common ancestor is above both blocks, and what dominates both dominates it. -/
theorem Links.intersect_ok (o : Order succs n rpo) (k : Links succs n rpo idom) (steps : Nat)
    (ha : (up idom a).isSome) (hb : (up idom b).isSome) (hsteps : rpo.idxOf a + rpo.idxOf b ≤ steps) :
    ∃ c, intersect (places n rpo) idom steps a b = .ok c ∧ Above idom a c ∧ Above idom b c ∧
      ∀ x, Dom succs x a → Dom succs x b → Dom succs x c := by
  induction steps generalizing a b with
  | zero =>
    have hab : a = b := o.eq_of_idxOf (k.mem a ha) (by omega)
    exact ⟨a, rfl, .refl, hab ▸ .refl, fun x hx _ => hx⟩
  | succ steps ih =>
    by_cases hab : a = b
    · exact ⟨a, by rw [intersect, if_pos hab], .refl, hab ▸ .refl, fun x hx _ => hx⟩
    rw [intersect, if_neg hab, o.placeOf_eq (k.mem a ha), o.placeOf_eq (k.mem b hb)]
    simp only [bind, Except.bind]
    by_cases hlt : rpo.idxOf b < rpo.idxOf a
    · -- The first block comes later, so it is not the entry and does not dominate the second.
      obtain ⟨hne, d, hd, hdlt, hds⟩ := k.climb o ha (Nat.zero_lt_of_lt hlt)
      obtain ⟨c, hc, hac, hbc, hdom⟩ := ih hds hb (by omega)
      rw [if_pos hlt, Links.idomOf_eq hd]
      refine ⟨c, hc, .head hd hac, hbc, fun x hxa hxb => hdom x ?_ hxb⟩
      refine k.sound a d hne hd x (fun hxa => ?_) hxa
      exact absurd (o.idxOf_le_of_dom (k.mem b hb) (hxa ▸ hxb)) (Nat.not_le.2 hlt)
    · have hlt' : rpo.idxOf a < rpo.idxOf b :=
        lt_of_le_of_ne (Nat.le_of_not_lt hlt) fun h => hab (o.eq_of_idxOf (k.mem a ha) h)
      obtain ⟨hne, d, hd, hdlt, hds⟩ := k.climb o hb (Nat.zero_lt_of_lt hlt')
      obtain ⟨c, hc, hac, hbc, hdom⟩ := ih ha hds (by omega)
      rw [if_neg hlt, Links.idomOf_eq hd]
      refine ⟨c, hc, hac, .head hd hbc, fun x hxa hxb => hdom x hxa ?_⟩
      refine k.sound b d hne hd x (fun hxb => ?_) hxb
      exact absurd (o.idxOf_le_of_dom (k.mem a ha) (hxb ▸ hxa)) (Nat.not_le.2 hlt')

theorem candidate_skip (hp : up idom p = none) (ps : List Label) (d : Option Label) :
    candidate order idom (p :: ps) d = candidate order idom ps d := by
  rw [candidate.eq_def]
  simp only [show idom[p]?.join = none from hp]

theorem candidate_first (hp : (up idom p).isSome) (ps : List Label) :
    candidate order idom (p :: ps) none = candidate order idom ps (some p) := by
  obtain ⟨e, he⟩ := Option.isSome_iff_exists.1 hp
  rw [candidate.eq_def]
  simp only [show idom[p]?.join = some e from he]

theorem candidate_meet (hp : (up idom p).isSome) (hc : intersect order idom (2 * order.size) p b = .ok c)
    (ps : List Label) : candidate order idom (p :: ps) (some b) = candidate order idom ps (some c) := by
  obtain ⟨e, he⟩ := Option.isSome_iff_exists.1 hp
  rw [candidate.eq_def]
  simp only [show idom[p]?.join = some e from he, hc]
  rfl

/-- The candidate is above all linked predecessors, and what dominates these dominates it. -/
theorem Links.candidate_ok (o : Order succs n rpo) (k : Links succs n rpo idom) (ps : List Label)
    (d : Option Label) (hd : ∀ e ∈ d, (up idom e).isSome) : ∃ r, candidate (places n rpo) idom ps d = .ok r ∧
      (∀ p, p ∈ d ∨ p ∈ ps ∧ (up idom p).isSome → ∃ c ∈ r, Above idom p c) ∧
      ∀ c ∈ r, (up idom c).isSome ∧ ∀ x, (∀ p, p ∈ d ∨ p ∈ ps → Dom succs x p) → Dom succs x c := by
  induction ps generalizing d with
  | nil =>
    refine ⟨d, rfl, fun p hp => ⟨p, by simpa using hp, .refl⟩, fun c hc => ⟨hd c hc, ?_⟩⟩
    exact fun x hx => hx c (.inl hc)
  | cons p ps ih =>
    cases hp : up idom p with
    | none =>
      obtain ⟨r, hr, habove, hdom⟩ := ih d hd
      refine ⟨r, (candidate_skip hp ps d).trans hr, ?_, ?_⟩
      · rintro q (hq | ⟨hq, hs⟩)
        · exact habove q (.inl hq)
        · rcases List.mem_cons.1 hq with rfl | hq
          · rw [hp] at hs
            exact absurd hs Bool.false_ne_true
          · exact habove q (.inr ⟨hq, hs⟩)
      · intro c hc
        refine ⟨(hdom c hc).1, fun x hx => (hdom c hc).2 x fun q hq => hx q ?_⟩
        exact hq.imp_right (List.mem_cons_of_mem p)
    | some e =>
      have hps : (up idom p).isSome := hp ▸ rfl
      cases d with
      | none =>
        obtain ⟨r, hr, habove, hdom⟩ := ih (some p) (by simpa using hps)
        refine ⟨r, (candidate_first hps ps).trans hr, ?_, ?_⟩
        · rintro q (hq | ⟨hq, hs⟩)
          · exact absurd hq (by simp)
          · rcases List.mem_cons.1 hq with rfl | hq
            · exact habove q (.inl rfl)
            · exact habove q (.inr ⟨hq, hs⟩)
        · intro c hc
          refine ⟨(hdom c hc).1, fun x hx => (hdom c hc).2 x fun q hq => hx q (.inr ?_)⟩
          rcases hq with hq | hq
          · exact List.mem_cons.2 (.inl (Option.some.inj hq).symm)
          · exact List.mem_cons_of_mem p hq
      | some b =>
        have hb := hd b rfl
        have hlt := o.idxOf_lt (k.mem p hps)
        have hlt' := o.idxOf_lt (k.mem b hb)
        obtain ⟨c, hc, hpc, hbc, hcdom⟩ :=
          k.intersect_ok o (2 * (places n rpo).size) hps hb (by rw [Order.size_places]; omega)
        obtain ⟨r, hr, habove, hdom⟩ := ih (some c) (by simpa using (k.above hpc hps).1)
        obtain ⟨a, har, hca⟩ := habove c (.inl rfl)
        refine ⟨r, (candidate_meet hps hc ps).trans hr, ?_, ?_⟩
        · rintro q (hq | ⟨hq, hs⟩)
          · cases hq
            exact ⟨a, har, hbc.trans hca⟩
          · rcases List.mem_cons.1 hq with rfl | hq
            · exact ⟨a, har, hpc.trans hca⟩
            · exact habove q (.inr ⟨hq, hs⟩)
        · intro c' hc'
          refine ⟨(hdom c' hc').1, fun x hx => (hdom c' hc').2 x fun q hq => ?_⟩
          rcases hq with hq | hq
          · cases hq
            exact hcdom x (hx p (.inr List.mem_cons_self)) (hx b (.inl rfl))
          · exact hx q (.inr (List.mem_cons_of_mem p hq))

/-! ## Rounds -/

def HoldsPreds (succs : Label → List Int) (preds : Array (List Label)) : Prop :=
  ∀ b p, Reaches succs b → (p ∈ preds.getD b [] ↔ Reaches succs p ∧ Edge succs p b)

/-- The links in a round after `t` others, when the blocks of `pre` are done. -/
structure Passed (succs : Label → List Int) (n : Nat) (rpo : List Label) (t : Nat)
    (pre : List Label) (idom : Array (Option Label)) : Prop where
  links : Links succs n rpo idom
  linked : ∀ b ∈ pre, (up idom b).isSome
  full : 0 < t → ∀ b ∈ rpo, (up idom b).isSome
  near : ∀ b d, up idom b = some d → DomUpTo succs rpo t d b
  nearer : ∀ b d, b ∈ pre → up idom b = some d → DomUpTo succs rpo (t + 1) d b

theorem Passed.above (h : Passed succs n rpo t pre idom) (hbd : Above idom b d) :
    DomUpTo succs rpo t d b := by
  induction hbd with
  | refl => exact .refl t b
  | @tail c d _ hcd ih => exact (h.near c d hcd).trans ih

/-- Blocks above a block that is done are done, so the better bound holds of them. -/
theorem Passed.above_done {post : List Label} (heq : rpo = pre ++ post) (h : Passed succs n rpo t pre idom)
    (hb : b ∈ pre) (hbd : Above idom b d) : DomUpTo succs rpo (t + 1) d b := by
  have hbs := h.linked b hb
  induction hbd with
  | refl => exact .refl (t + 1) b
  | @tail c d hbc hcd ih =>
    obtain ⟨hcs, hle⟩ := h.links.above hbc hbs
    have hc : c ∈ pre := by
      by_contra hc
      have hlt : rpo.idxOf b < rpo.idxOf c := by
        rw [heq, List.idxOf_append_of_mem hb, List.idxOf_append_of_notMem hc]
        exact Nat.lt_add_right _ (List.idxOf_lt_length_iff.2 hb)
      omega
    exact (h.nearer c d hc hcd).trans ih

/-- What one block's turn in a round does. -/
theorem Passed.turn (o : Order succs n rpo) (hp : HoldsPreds succs preds) (heq : rpo = pre ++ b :: bs)
    (hpre : entry ∈ pre) (h : Passed succs n rpo t pre idom) :
    ∃ c, candidate (places n rpo) idom (preds.getD b []) none = .ok (some c) ∧
      Passed succs n rpo t (pre ++ [b]) (idom.setIfInBounds b (some c)) := by
  have k := h.links
  obtain ⟨hb, hbpre⟩ := o.next heq
  have hbr := (o.mem b).1 hb
  have hne : b ≠ entry := fun he => hbpre (he ▸ hpre)
  have hbn : b < idom.size := k.size ▸ o.lt b hb
  have mem_pre : ∀ p ∈ rpo, rpo.idxOf p < rpo.idxOf b → p ∈ pre := by
    intro p _ hlt
    by_contra hnp
    rw [heq, List.idxOf_append_of_notMem hnp, List.idxOf_append_of_notMem hbpre, List.idxOf_cons_self] at hlt
    omega
  obtain ⟨r, hr, habove, hdom⟩ := k.candidate_ok o (preds.getD b []) none (by simp)
  -- An earlier predecessor is linked already, so there is a candidate, and it is earlier too.
  obtain ⟨q, hq, e, hqlt⟩ := o.earlier hb hne
  have hqs := h.linked q (mem_pre q hq hqlt)
  obtain ⟨c, hc, hqc⟩ := habove q (.inr ⟨(hp b q hbr).2 ⟨(o.mem q).1 hq, e⟩, hqs⟩)
  obtain rfl : r = some c := hc
  have hclt : rpo.idxOf c < rpo.idxOf b := (k.above hqc hqs).2.trans_lt hqlt
  have hcb : c ≠ b := fun he => by rw [he] at hclt; omega
  have hset := up_set hbn c
  have hold : ∀ x d, x ≠ b → up (idom.setIfInBounds b (some c)) x = some d → up idom x = some d := by
    intro x d hx hd
    rwa [hset, if_neg hx] at hd
  have hnew : ∀ d, up (idom.setIfInBounds b (some c)) b = some d → c = d := by
    intro d hd
    rw [hset, if_pos rfl] at hd
    exact Option.some.inj hd
  have hsome : ∀ x, (up idom x).isSome → (up (idom.setIfInBounds b (some c)) x).isSome := by
    intro x hx
    rw [hset]
    split
    · rfl
    · exact hx
  have hnear : DomUpTo succs rpo (t + 1) c b := by
    refine .of_preds hne (fun p hpr pe hplt => ?_) (fun p hpr pe => ?_)
    · have hpp := mem_pre p ((o.mem p).2 hpr) hplt
      obtain ⟨c', hc', hpc⟩ := habove p (.inr ⟨(hp b p hbr).2 ⟨hpr, pe⟩, h.linked p hpp⟩)
      cases hc'
      exact h.above_done heq hpp hpc
    · -- A predecessor without a link occurs in the first round only, where nothing is asked.
      intro vs hvs ht
      have hps := h.full (Nat.zero_lt_of_lt ht) p ((o.mem p).2 hpr)
      obtain ⟨c', hc', hpc⟩ := habove p (.inr ⟨(hp b p hbr).2 ⟨hpr, pe⟩, hps⟩)
      cases hc'
      exact h.above hpc vs hvs ht
  refine ⟨c, hr, ⟨by simpa using k.size, ?_, ?_, ?_, ?_⟩, ?_, fun ht x hx => hsome x (h.full ht x hx), ?_, ?_⟩
  · rw [hset, if_neg hne.symm]
    exact k.root
  · intro x hx
    by_cases hxb : x = b
    · exact hxb ▸ hb
    · rw [hset, if_neg hxb] at hx
      exact k.mem x hx
  · intro x d hx hd
    by_cases hxb : x = b
    · subst hxb
      obtain rfl := hnew d hd
      exact ⟨hclt, hsome c (hdom c rfl).1⟩
    · obtain ⟨hlt, hs⟩ := k.lower x d hx (hold x d hxb hd)
      exact ⟨hlt, hsome d hs⟩
  · intro x d hx hd a hax ha
    by_cases hxb : x = b
    · subst hxb
      obtain rfl := hnew d hd
      refine (hdom c rfl).2 a fun p hpm => ?_
      have hpm : p ∈ preds.getD x [] := by simpa using hpm
      exact ha.of_edge hax ((hp x p hbr).1 hpm).2
    · exact k.sound x d hx (hold x d hxb hd) a hax ha
  · intro x hx
    rcases List.mem_append.1 hx with hx | hx
    · exact hsome x (h.linked x hx)
    · rw [List.mem_singleton.1 hx, hset, if_pos rfl]
      rfl
  · intro x d hd
    by_cases hxb : x = b
    · subst hxb
      obtain rfl := hnew d hd
      exact hnear.mono (Nat.le_succ t)
    · exact h.near x d (hold x d hxb hd)
  · intro x d hx hd
    by_cases hxb : x = b
    · subst hxb
      obtain rfl := hnew d hd
      exact hnear
    · refine h.nearer x d ?_ (hold x d hxb hd)
      exact (List.mem_append.1 hx).resolve_right fun hm => hxb (List.mem_singleton.1 hm)

theorem round_cons {d : Option Label} (hb : b < idom.size)
    (hd : candidate order idom (preds.getD b []) none = .ok d) (bs : List Label) (changed : Bool) :
    round preds order (b :: bs) idom changed =
      round preds order bs (idom.setIfInBounds b d) (changed || decide (up idom b ≠ d)) := by
  rw [round, hd]
  simp only [bind, Except.bind]
  by_cases h : up idom b = d
  · have hset : idom.setIfInBounds b d = idom := by
      refine Array.ext_getElem? fun i => ?_
      rw [Array.getElem?_setIfInBounds]
      split
      · rename_i hbi
        subst hbi
        simpa [up, hb] using h.symm
      · rfl
    rw [if_pos (show idom[b]?.join = d from h), hset]
    simp [h]
  · rw [if_neg (show ¬ idom[b]?.join = d from h)]
    simp [h]

/-- A round that reports no change has made none. -/
theorem round_unchanged {idom' : Array (Option Label)} {changed : Bool}
    (h : round preds order bs idom changed = .ok (idom', false)) : changed = false ∧ idom' = idom := by
  induction bs generalizing idom changed with
  | nil =>
    simp only [round, Except.ok.injEq, Prod.mk.injEq] at h
    exact ⟨h.2, h.1.symm⟩
  | cons b bs ih =>
    rw [round] at h
    obtain ⟨d, -, h⟩ := bind_eq_ok.1 h
    split at h
    · exact ih h
    · exact absurd (ih h).1 Bool.noConfusion

theorem Passed.round_ok (o : Order succs n rpo) (hp : HoldsPreds succs preds) (heq : rpo = pre ++ bs)
    (hpre : entry ∈ pre) (h : Passed succs n rpo t pre idom) (changed : Bool) : ∃ idom' changed',
      round preds (places n rpo) bs idom changed = .ok (idom', changed') ∧
        Passed succs n rpo t rpo idom' := by
  induction bs generalizing pre idom changed with
  | nil =>
    rw [List.append_nil] at heq
    exact ⟨idom, changed, rfl, heq ▸ h⟩
  | cons b bs ih =>
    obtain ⟨c, hc, h'⟩ := h.turn o hp heq hpre
    have hb : b < idom.size := h.links.size ▸ o.lt b (heq ▸ List.mem_append_right _ List.mem_cons_self)
    rw [round_cons hb hc]
    exact ih (by simpa using heq) (List.mem_append_left _ hpre) h' _

/-- The next round begins with the entry, which is linked to itself. -/
theorem Passed.next (h : Passed succs n rpo t rpo idom) : Passed succs n rpo (t + 1) [entry] idom where
  links := h.links
  linked b hb := by
    rw [List.mem_singleton.1 hb, h.links.root]
    rfl
  full _ := h.linked
  near b d hd := h.nearer b d (h.links.mem b (hd ▸ rfl)) hd
  nearer b d hb hd := by
    rw [List.mem_singleton.1 hb, h.links.root] at hd
    rw [List.mem_singleton.1 hb, ← Option.some.inj hd]
    exact .refl _ _

/-- The links lead to dominators. -/
structure Settled (succs : Label → List Int) (n : Nat) (rpo : List Label)
    (idom : Array (Option Label)) : Prop where
  links : Links succs n rpo idom
  linked : ∀ b ∈ rpo, (up idom b).isSome
  dom : ∀ b d, up idom b = some d → Dom succs d b

section

variable (o : Order succs n rpo)
include o

theorem Passed.settled (h0 : 0 < n) (ht : n ≤ t) (h : Passed succs n rpo t pre idom) :
    Settled succs n rpo idom where
  links := h.links
  linked := h.full (h0.trans_le ht)
  dom b d hd := o.dom_of_domUpTo ht (h.near b d hd)

theorem solve_ok (hp : HoldsPreds succs preds) (h0 : 0 < n) (rounds : Nat) (ht : n ≤ t + rounds)
    (h : Passed succs n rpo t [entry] idom) :
    ∃ idom', solve preds (places n rpo) rpo.tail rounds idom = .ok idom' ∧ Settled succs n rpo idom' := by
  obtain ⟨ls, hls⟩ := List.head?_eq_some_iff.1 o.head
  have heq : rpo = [entry] ++ rpo.tail := by rw [hls]; rfl
  induction rounds generalizing t idom with
  | zero => exact ⟨idom, rfl, h.settled o h0 ht⟩
  | succ rounds ih =>
    obtain ⟨idom', changed, hr, h'⟩ := h.round_ok o hp heq (List.mem_singleton.2 rfl) false
    rw [solve, hr]
    simp only [bind, Except.bind]
    cases changed with
    | true => exact ih (by omega) (h'.next)
    | false =>
      -- The same round can be made again and again, so the links are good for any number of rounds.
      obtain ⟨-, rfl⟩ := round_unchanged hr
      have hall : ∀ k, Passed succs n rpo (t + k) [entry] idom' := by
        intro k
        induction k with
        | zero => exact h
        | succ k ihk =>
          obtain ⟨idom'', changed, hr', h''⟩ := ihk.round_ok o hp heq (List.mem_singleton.2 rfl) false
          rw [hr] at hr'
          obtain rfl := (Prod.mk.inj (Except.ok.inj hr')).1
          exact h''.next
      exact ⟨idom', rfl, (hall n).settled o h0 (Nat.le_add_left n t)⟩

theorem passed_start (h0 : 0 < n) :
    Passed succs n rpo 0 [entry] ((Array.replicate n none).setIfInBounds entry (some entry)) := by
  have hsize : entry < (Array.replicate n (none : Option Label)).size := h0.trans_eq Array.size_replicate.symm
  have hup : ∀ l, up ((Array.replicate n none).setIfInBounds entry (some entry)) l =
      if l = entry then some entry else none := by
    intro l
    rw [up_set hsize]
    congr 1
    simp only [up, Array.getElem?_replicate]
    split <;> rfl
  have hentry : ∀ b d, up ((Array.replicate n none).setIfInBounds entry (some entry)) b = some d →
      b = entry ∧ d = entry := by
    intro b d hd
    rw [hup] at hd
    split at hd
    · exact ⟨‹_›, (Option.some.inj hd).symm⟩
    · cases hd
  refine ⟨⟨by simp, by simp [hup], ?_, ?_, ?_⟩, by simp [hup], by simp, ?_, ?_⟩
  · intro b hb
    obtain ⟨d, hd⟩ := Option.isSome_iff_exists.1 hb
    exact (hentry b d hd).1 ▸ o.entry_mem
  · exact fun b d hb hd => absurd (hentry b d hd).1 hb
  · exact fun b d hb hd => absurd (hentry b d hd).1 hb
  · intro b d hd
    obtain ⟨rfl, rfl⟩ := hentry b d hd
    exact .refl _ _
  · intro b d _ hd
    obtain ⟨rfl, rfl⟩ := hentry b d hd
    exact .refl _ _

end

end Codesmith.Graph
