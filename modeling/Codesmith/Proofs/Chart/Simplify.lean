import Codesmith.Proofs.Chart.Mimic
import Codesmith.Proofs.Flow.Merge

/-!
# Replacing joined values

A value at the head of a block may be replaced by another if everything that it joins is replaced by
that one too. The other value is then defined in a block that strictly dominates the head, so it is
available wherever the replaced value was, and it holds the same word there. The chart without the
replaced values is well formed and ends alike.
-/

namespace Codesmith.Gen.Chart

variable {a : Act}

/-- A replacement of values at the heads of reached blocks. What such a value joins from reached blocks
is replaced like the value itself. -/
structure Replaces (c : Chart) (σ : Ref → Ref) : Prop where
  idem : ∀ x, σ (σ x) = σ x
  phi : ∀ x, σ x ≠ x → ∃ l, c.home x = some ⟨l, none⟩ ∧ Graph.Reaches c.succs l ∧ l ≠ Graph.entry ∧
    ∀ e ∈ c.incoming x, Graph.Reaches c.succs e.source.toNat → σ e.ref = σ x

/-- The chart without the replaced values. -/
def simplify (c : Chart) (σ : Ref → Ref) : Chart :=
  { c with
    block := fun l =>
      { phis := (c.block l).phis.filter fun x => σ x = x
        code := (c.block l).code.map (Act.rename σ)
        exit := (c.block l).exit.map (Exit.rename σ) }
    home := fun x => if σ x = x then c.home x else none
    ty := fun x => if σ x = x then c.ty x else .void
    incoming := fun x =>
      if σ x = x then (c.incoming x).map fun e => ⟨e.source, σ e.ref⟩ else [] }

variable {c : Chart} {σ : Ref → Ref} {l p : Label} {i : Nat} {x y : Ref}

theorem simplify_eq_self (h : ∀ x, σ x = x) : c.simplify σ = c := by
  have hcode : ∀ a : Act, a.rename σ = a := fun a => by
    cases a with
    | compute out k => cases k <;> simp only [Act.rename, Compute.rename, h]
    | arg out n => simp only [Act.rename, h]
    | store k p x => simp only [Act.rename, h]
  have hexit : ∀ e : Exit, e.rename σ = e := fun e => by
    cases e with
    | jump t => rfl
    | branch x yes no => simp only [Exit.rename, h]
    | ret x => cases x <;> simp [Exit.rename, h]
  simp [simplify, h, funext hcode, funext hexit]

/-! ## Where the other value is defined -/

/-- What a replaced value joins on an edge. -/
theorem Replaces.carried (hs : c.Replaces σ) (hw : c.WellFormed) (hx : σ x ≠ x)
    (hhome : c.home x = some ⟨l, none⟩) (hc : c.Consistent) (hp : Graph.Reaches c.succs p)
    (e : Graph.Edge c.succs p l) :
    ∃ y, c.carried? p x = some y ∧ c.ty y = c.ty x ∧ c.Available p (c.length p) y ∧ σ y = σ x := by
  obtain ⟨y, hy, hty, hav, -⟩ := (hw.joins l (hp.step e) x ((hc.phi l x).2 hhome)).carried hp e
  obtain ⟨k, -, -, -, hin⟩ := hs.phi x hx
  obtain ⟨v, hv, hsource, rfl⟩ := carried?_mem hy
  exact ⟨v.ref, hy, hty, hav, hin v hv (by rw [hsource, Int.toNat_natCast]; exact hp)⟩

section

variable (hs : c.Replaces σ) (hw : c.WellFormed) (hc : c.Consistent)
include hs hw hc

theorem Replaces.merges : Graph.Merges c.succs (fun x => (c.home x).map Home.block) c.ty σ where
  idem := hs.idem
  joins x hx := by
    obtain ⟨l, hl, hr, hne, -⟩ := hs.phi x hx
    refine ⟨l, by rw [hl]; rfl, hr, hne, fun p hp e => ?_⟩
    obtain ⟨y, -, hty, hav, hyx⟩ := hs.carried hw hx hl hc hp e
    obtain ⟨q, hq, hdom⟩ := hav.dom
    exact ⟨y, q.block, by rw [hq]; rfl, hdom, hyx, hty⟩

/-- The other value is defined in a block that strictly dominates the head. -/
theorem Replaces.dom (hx : σ x ≠ x) :
    ∃ l q, c.home x = some ⟨l, none⟩ ∧ c.home (σ x) = some q ∧ Graph.Reaches c.succs l ∧
      Graph.Dom c.succs q.block l ∧ q.block ≠ l := by
  obtain ⟨l, hl, -⟩ := hs.phi x hx
  obtain ⟨l', k, hl', hk, hr, hdom, hne⟩ := (hs.merges hw hc).dom hx
  obtain ⟨q, hq, rfl⟩ := Option.map_eq_some_iff.1 hk
  rw [hl] at hl'
  cases hl'
  exact ⟨l, q, hl, hq, hr, hdom, hne⟩

theorem Replaces.ty_eq (x : Ref) : c.ty (σ x) = c.ty x :=
  (hs.merges hw hc).ty_eq x

theorem Replaces.home_ne_none (hx : c.home x ≠ none) : c.home (σ x) ≠ none := by
  by_cases he : σ x = x
  · rwa [he]
  · obtain ⟨l, q, -, hq, -⟩ := hs.dom hw hc he
    rw [hq]
    exact nofun

/-- The other value does not have its home where the replaced value is still available. -/
theorem Replaces.home_ne (hx : σ x ≠ x) (h : c.Available l i x) {q : Home} (hq : c.home (σ x) = some q) :
    q.block ≠ l ∧ Graph.Dom c.succs q.block l := by
  obtain ⟨p, hp, hdom⟩ := h.dom
  exact (hs.merges hw hc).apart hx (by rw [hp]; rfl) hdom (by rw [hq]; rfl)

theorem Replaces.available (hl : Graph.Reaches c.succs l) (h : c.Available l i x) :
    c.Available l i (σ x) := by
  by_cases hx : σ x = x
  · rwa [hx]
  · obtain ⟨q, hq⟩ := Option.ne_none_iff_exists'.1 (hs.home_ne_none hw hc h.home_ne_none)
    obtain ⟨hne, hdom⟩ := hs.home_ne hw hc hx h hq
    exact ⟨q, hq, hdom.reaches hl, .inr ⟨hne, hdom⟩⟩

end

/-! ## The simplified chart -/

@[simp] theorem succs_simplify (c : Chart) (σ : Ref → Ref) : (c.simplify σ).succs = c.succs := by
  funext l
  simp only [succs, simplify]
  cases (c.block l).exit with
  | none => rfl
  | some e => exact Exit.targets_rename σ e

theorem EntryOnce.simplify (h : c.EntryOnce) (σ : Ref → Ref) : (c.simplify σ).EntryOnce := by
  rwa [EntryOnce, succs_simplify]

@[simp] theorem length_simplify (c : Chart) (σ : Ref → Ref) (l : Label) :
    (c.simplify σ).length l = c.length l :=
  List.length_map _

theorem simplify_home (hx : σ x = x) : (c.simplify σ).home x = c.home x := if_pos hx

theorem simplify_ty (hx : σ x = x) : (c.simplify σ).ty x = c.ty x := if_pos hx

theorem simplify_incoming (hx : σ x = x) :
    (c.simplify σ).incoming x = (c.incoming x).map fun e => ⟨e.source, σ e.ref⟩ := if_pos hx

theorem available_simplify (h : c.Available l i x) (hx : σ x = x) : (c.simplify σ).Available l i x := by
  obtain ⟨q, hq, hr, hplace⟩ := h
  refine ⟨q, by rw [simplify_home hx, hq], ?_⟩
  rw [succs_simplify]
  exact ⟨hr, hplace⟩

theorem mem_simplify_phis : x ∈ ((c.simplify σ).block l).phis ↔ x ∈ (c.block l).phis ∧ σ x = x := by
  simp [simplify, List.mem_filter]

theorem simplify_getElem? : ((c.simplify σ).block l).code[i]? = some a ↔
    ∃ b, (c.block l).code[i]? = some b ∧ b.rename σ = a := by
  rw [simplify, List.getElem?_map, Option.map_eq_some_iff]

section

variable (hs : c.Replaces σ) (hc : c.Consistent) (ha : (c.block l).code[i]? = some a)
include hs hc ha

theorem Replaces.out (hx : a.out? = some x) : σ x = x := by
  by_contra hne
  obtain ⟨k, hk, -⟩ := hs.phi x hne
  rw [hc.out l i a x ha hx] at hk
  cases hk

theorem Replaces.out_rename : (a.rename σ).out? = a.out? := by
  rw [Act.out?_rename]
  cases hx : a.out? with
  | none => rfl
  | some x => exact congrArg some (hs.out hc ha hx)

end

section

variable (hs : c.Replaces σ) (hw : c.WellFormed) (hc : c.Consistent)
include hs hw hc

theorem Replaces.consistent : (c.simplify σ).Consistent := by
  have hhome : ∀ {x p}, (c.simplify σ).home x = some p ↔ σ x = x ∧ c.home x = some p := by
    intro x p
    simp [simplify, Option.ite_none_right_eq_some]
  have hty : ∀ x, (c.simplify σ).ty (σ x) = c.ty x := fun x => by
    rw [simplify_ty (hs.idem x), hs.ty_eq hw hc]
  exact {
    pos := hc.pos
    current := hc.current
    beyond := fun l hl => by simp [simplify, hc.beyond l hl]
    phi := fun l x => by rw [mem_simplify_phis, hhome, hc.phi, and_comm]
    nodup := fun l => (hc.nodup l).filter _
    out := fun l i a x ha hx => by
      obtain ⟨b, hb, rfl⟩ := simplify_getElem?.1 ha
      rw [hs.out_rename hc hb] at hx
      exact hhome.2 ⟨hs.out hc hb hx, hc.out l i b x hb hx⟩
    placed := fun l i x hx => by
      obtain ⟨b, hb, hbx⟩ := hc.placed l i x (hhome.1 hx).2
      exact ⟨_, simplify_getElem?.2 ⟨b, hb, rfl⟩, by rw [hs.out_rename hc hb, hbx]⟩
    nonneg := fun x hx => by
      obtain ⟨p, hp⟩ := Option.ne_none_iff_exists'.1 hx
      refine hc.nonneg x ?_
      rw [(hhome.1 hp).2]
      exact nofun
    typed := fun x hx => by
      simp only [simplify] at hx ⊢
      split at hx
      · rename_i he
        rw [if_pos he]
        exact hc.typed x hx
      · exact absurd rfl hx
    scalar := fun l x hx => by
      obtain ⟨he, hx⟩ := hhome.1 hx
      have := hty x
      rw [he] at this
      rw [this]
      exact hc.scalar l x hx
    joint := fun x hx => by
      simp only [simplify] at hx
      split at hx
      · rename_i he
        obtain ⟨l, hl⟩ := hc.joint x fun hnil => hx (by rw [hnil]; rfl)
        exact ⟨l, hhome.2 ⟨he, hl⟩⟩
      · exact absurd rfl hx
    source := fun x e he => by
      simp only [simplify] at he
      split at he
      · obtain ⟨v, hv, rfl⟩ := List.mem_map.1 he
        exact hc.source x v hv
      · cases he
    lines := fun l a ha => by
      obtain ⟨b, hb, rfl⟩ := List.mem_map.1 ha
      exact (hc.lines l b hb).rename hty
    exits := fun l e he => by
      obtain ⟨e', he', rfl⟩ := Option.map_eq_some_iff.1 he
      exact (Exit.fits_rename hty _ _ _).2 (hc.exits l e' he')
    args := fun i hi => by
      have ha := hc.args i hi
      exact simplify_getElem?.2 ⟨_, ha, congrArg (Act.arg · i) (hs.out hc ha rfl)⟩
    only := fun l i x n ha => by
      obtain ⟨b, hb, hba⟩ := simplify_getElem?.1 ha
      cases b with
      | arg y k =>
        obtain ⟨rfl, rfl⟩ := Act.arg.inj hba
        rw [hs.out hc hb rfl]
        exact hc.only l i y k hb
      | compute => cases hba
      | store => cases hba }

theorem Replaces.wellFormed : (c.simplify σ).WellFormed := by
  have hav : ∀ {l i x}, Graph.Reaches c.succs l → c.Available l i x →
      (c.simplify σ).Available l i (σ x) := fun hl h =>
    available_simplify (hs.available hw hc hl h) (hs.idem _)
  constructor <;> rw [succs_simplify]
  · intro l hl he
    exact hw.ended l hl (Option.map_eq_none_iff.1 he)
  · intro l hl x hx
    obtain ⟨hx, he⟩ := mem_simplify_phis.1 hx
    have hj := hw.joins l hl x hx
    constructor <;> rw [simplify_incoming he, succs_simplify]
    · intro p hp e
      rw [List.countP_map]
      exact hj.one p hp e
    · intro e hmem hr
      obtain ⟨v, hv, rfl⟩ := List.mem_map.1 hmem
      obtain ⟨hedge, hty, hvav⟩ := hj.each v hv hr
      refine ⟨hedge, ?_, ?_⟩
      · rw [simplify_ty (hs.idem v.ref), simplify_ty he, hs.ty_eq hw hc, hty]
      · rw [length_simplify]
        exact hav hr hvav
  · intro l hl i a ha x hx
    obtain ⟨b, hb, rfl⟩ := simplify_getElem?.1 ha
    rw [Act.reads_rename] at hx
    obtain ⟨y, hy, rfl⟩ := List.mem_map.1 hx
    exact hav hl (hw.lines l hl i b hb y hy)
  · intro l hl e he x hx
    obtain ⟨e', he', rfl⟩ := Option.map_eq_some_iff.1 he
    rw [Exit.reads_rename] at hx
    obtain ⟨y, hy, rfl⟩ := List.mem_map.1 hx
    rw [length_simplify]
    exact hav hl (hw.exits l hl e' he' y hy)

end

/-! ## Runs -/

theorem simplify_carried? (hx : σ x = x) (p : Label) :
    (c.simplify σ).carried? p x = (c.carried? p x).map σ := by
  rw [carried?, carried?, simplify_incoming hx, List.find?_map, Option.map_map, Option.map_map]
  rfl

section

variable (hs : c.Replaces σ) (hw : c.WellFormed) (hc : c.Consistent)
include hs hw hc

/-- Values at the head of a block stay out of the way of those that are still available there. -/
theorem Replaces.not_mem_phis (h : c.Available l i x) (hx : x ∉ (c.block l).phis) :
    σ x ∉ (c.block l).phis := by
  intro hmem
  by_cases he : σ x = x
  · exact hx (he ▸ hmem)
  · exact (hs.home_ne hw hc he h ((hc.phi l _).1 hmem)).1 rfl

theorem Replaces.mimics : c.Mimics (c.simplify σ) σ where
  code _ _ := rfl
  exit _ _ := rfl
  apart l i a x y hl ha hy hx he := by
    have hhome := hc.out l i a y ha hy
    rw [hs.out hc ha hy] at he
    by_contra hne
    exact (hs.home_ne hw hc (fun h => hne (h.symm.trans he)) hx (he ▸ hhome)).1 rfl
  enter p l v v' hp e hv x hx := by
    have hl := hp.step e
    by_cases hmem : x ∈ (c.block l).phis
    · obtain ⟨y, hy, -, hav, -⟩ := (hw.joins l hl x hmem).carried hp e
      have hleft : c.enter p l v x = v y := by rw [enter, if_pos hmem, hy]; rfl
      rw [hleft, ← hv y hav]
      by_cases he : σ x = x
      · rw [he, enter, if_pos (mem_simplify_phis.2 ⟨hmem, he⟩), simplify_carried? he, hy]
        rfl
      -- The other value comes along unchanged, and it holds what the edge carries.
      obtain ⟨y', hy', -, -, hyx⟩ := hs.carried hw he ((hc.phi l x).1 hmem) hc hp e
      cases hy.symm.trans hy'
      obtain ⟨k, q, hk, hq, -, -, hne⟩ := hs.dom hw hc he
      obtain rfl : k = l := by simpa using hk.symm.trans ((hc.phi l x).1 hmem)
      rw [enter, if_neg fun hz => ?_, hyx]
      have := ((hc.phi k _).1 (mem_simplify_phis.1 hz).1).symm.trans hq
      exact hne (congrArg Home.block (Option.some.inj this).symm)
    · have hnot := hs.not_mem_phis hw hc hx hmem
      rw [enter, if_neg fun h => hnot (mem_simplify_phis.1 h).1, enter, if_neg hmem]
      exact hv x ((hx.of_edge hc e).resolve_left hmem)

end

end Codesmith.Gen.Chart
