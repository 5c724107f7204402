import Codesmith.Proofs.Chart.Rule

/-!
# The copies on an edge

When control takes an edge, the values at the head of the target join those that the edge carries. In a
well-formed chart this is one copy for each such value, save those that carry themselves.
-/

namespace Codesmith.Gen.Chart

variable {p l : Label} {x y : Ref} {v w : Ref → Word}

def moves (c : Chart) (source target : Label) : List (Ref × Ref) :=
  (c.block target).phis.flatMap fun x =>
    (c.incoming x).filterMap fun e =>
      if e.source = (source : Int) ∧ e.ref ≠ x then some (x, e.ref) else none

theorem exists_of_countP_eq_one {α : Type} {p : α → Bool} {xs : List α} (h : xs.countP p = 1) :
    ∃ x ∈ xs, xs.filter p = [x] ∧ xs.find? p = some x := by
  rw [List.countP_eq_length_filter] at h
  obtain ⟨x, hx⟩ := List.length_eq_one_iff.1 h
  refine ⟨x, ?_, hx, by rw [← List.head?_filter, hx]; rfl⟩
  exact (List.mem_filter.1 (hx ▸ List.mem_singleton.2 rfl : x ∈ xs.filter p)).1

variable {c : Chart}

/-- What an edge carries for a value at the head of its target. -/
theorem Joins.carried (h : c.Joins l x) (hp : Graph.Reaches c.succs p) (e : Graph.Edge c.succs p l) :
    ∃ y, c.carried? p x = some y ∧ c.ty y = c.ty x ∧ c.Available p (c.length p) y ∧
      ((c.incoming x).filterMap fun e =>
        if e.source = (p : Int) ∧ e.ref ≠ x then some (x, e.ref) else none) =
          if y = x then [] else [(x, y)] := by
  obtain ⟨v, hv, hfilter, hfind⟩ := exists_of_countP_eq_one (h.one p hp e)
  have hsource : v.source = (p : Int) := by simpa using List.find?_some hfind
  have heach := h.each v hv (by rw [hsource, Int.toNat_natCast]; exact hp)
  rw [hsource, Int.toNat_natCast] at heach
  refine ⟨v.ref, by rw [carried?, hfind]; rfl, heach.2.1, heach.2.2, ?_⟩
  have hsplit : ((c.incoming x).filterMap fun e =>
      if e.source = (p : Int) ∧ e.ref ≠ x then some (x, e.ref) else none) =
        ((c.incoming x).filter fun e => e.source == (p : Int)).filterMap fun e =>
          if e.ref ≠ x then some (x, e.ref) else none := by
    rw [List.filterMap_filter]
    refine List.filterMap_congr fun e _ => ?_
    by_cases hs : e.source = (p : Int) <;> simp [hs]
  rw [hsplit, hfilter]
  by_cases hy : v.ref = x <;> simp [hy]

theorem WellFormed.mem_moves (hw : c.WellFormed) (hp : Graph.Reaches c.succs p) (e : Graph.Edge c.succs p l) :
    (x, y) ∈ c.moves p l ↔ x ∈ (c.block l).phis ∧ c.carried? p x = some y ∧ y ≠ x := by
  rw [moves, List.mem_flatMap]
  constructor
  · rintro ⟨z, hz, hm⟩
    obtain ⟨u, hu, -, -, heq⟩ := (hw.joins l (hp.step e) z hz).carried hp e
    rw [heq] at hm
    split at hm
    · cases hm
    · obtain ⟨rfl, rfl⟩ := Prod.mk.inj (List.mem_singleton.1 hm)
      exact ⟨hz, hu, ‹_›⟩
  · rintro ⟨hx, hy, hne⟩
    obtain ⟨u, hu, -, -, heq⟩ := (hw.joins l (hp.step e) x hx).carried hp e
    cases hu.symm.trans hy
    exact ⟨x, hx, by rw [heq, if_neg hne]; exact List.mem_singleton.2 rfl⟩

section

variable (hw : c.WellFormed) (hc : c.Consistent) (hp : Graph.Reaches c.succs p) (e : Graph.Edge c.succs p l)
include hw hc hp e

theorem WellFormed.moves_nodup : ((c.moves p l).map Prod.fst).Nodup := by
  have hsub : ∀ xs : List Ref, xs ⊆ (c.block l).phis →
      ((xs.flatMap fun x => (c.incoming x).filterMap fun e =>
        if e.source = (p : Int) ∧ e.ref ≠ x then some (x, e.ref) else none).map Prod.fst).Sublist
          xs := by
    intro xs hxs
    induction xs with
    | nil => exact List.Sublist.refl _
    | cons x xs ih =>
      obtain ⟨y, -, -, -, heq⟩ := (hw.joins l (hp.step e) x (hxs List.mem_cons_self)).carried hp e
      rw [List.flatMap_cons, heq, List.map_append]
      have ih := ih fun z hz => hxs (List.mem_cons_of_mem x hz)
      split
      · exact ih.cons x
      · exact ih.cons_cons x
  exact (hc.nodup l).sublist (hsub _ (List.Subset.refl _))

theorem WellFormed.home_of_mem_moves {m : Ref × Ref} (hm : m ∈ c.moves p l) :
    c.home m.1 ≠ none ∧ c.home m.2 ≠ none := by
  obtain ⟨hx, hy, -⟩ := (hw.mem_moves hp e).1 hm
  obtain ⟨y, hy', -, ⟨h, hhome, -⟩, -⟩ := (hw.joins l (hp.step e) m.1 hx).carried hp e
  cases hy.symm.trans hy'
  rw [(hc.phi l m.1).1 hx, hhome]
  exact ⟨nofun, nofun⟩

end

/-- Values that hold what the copies of an edge bring are those after the edge. -/
theorem WellFormed.eq_enter (hw : c.WellFormed) (hp : Graph.Reaches c.succs p) (e : Graph.Edge c.succs p l)
    (hmoved : ∀ m ∈ c.moves p l, w m.1 = v m.2) (hkept : x ∉ (c.moves p l).map Prod.fst → w x = v x) :
    w x = c.enter p l v x := by
  unfold enter
  split
  · rename_i hx
    obtain ⟨y, hy, -⟩ := (hw.joins l (hp.step e) x hx).carried hp e
    rw [hy, Option.getD_some]
    by_cases hyx : y = x
    · subst hyx
      refine hkept fun hm => ?_
      obtain ⟨⟨a, b⟩, hab, rfl⟩ := List.mem_map.1 hm
      obtain ⟨-, hb, hne⟩ := (hw.mem_moves hp e).1 hab
      exact hne (Option.some.inj (hb.symm.trans hy))
    · exact hmoved (x, y) ((hw.mem_moves hp e).2 ⟨hx, hy, hyx⟩)
  · rename_i hx
    refine hkept fun hm => ?_
    obtain ⟨⟨a, b⟩, hab, rfl⟩ := List.mem_map.1 hm
    exact hx ((hw.mem_moves hp e).1 hab).1

/-! ## Types -/

/-- Every value holds the word of a value of its type. -/
def Carries (c : Chart) (w v : Ref → Word) : Prop :=
  ∀ x, c.home x ≠ none → ∃ y, c.ty y = c.ty x ∧ w x = v y

section

variable (hw : c.WellFormed) (hp : Graph.Reaches c.succs p) (e : Graph.Edge c.succs p l)
include hw hp e

theorem WellFormed.ty_of_mem_moves (h : (x, y) ∈ c.moves p l) : c.ty y = c.ty x := by
  obtain ⟨hx, hy, -⟩ := (hw.mem_moves hp e).1 h
  obtain ⟨y', hy', hty, -⟩ := (hw.joins l (hp.step e) x hx).carried hp e
  rwa [Option.some.inj (hy.symm.trans hy')]

theorem WellFormed.carries_enter (h : ∀ x, c.home x ≠ none → w x = c.enter p l v x) : c.Carries w v := by
  intro x hx
  rw [h x hx, enter]
  split
  · rename_i hphi
    obtain ⟨y, hy, hty, -⟩ := (hw.joins l (hp.step e) x hphi).carried hp e
    exact ⟨y, hty, by rw [hy]; rfl⟩
  · exact ⟨x, rfl, rfl⟩

end

end Codesmith.Gen.Chart
