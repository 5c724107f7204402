import Codesmith.Proofs.Chart.Sheet

/-!
# Drawing sheets

What a description does to a sheet, step by step: items are added to the current block, the current
block is left, another one is entered or given up, and at the end of a loop more becomes known of the
blocks that were made for it. Every step keeps sheets sound.
-/

namespace Codesmith.Gen

variable {c c' : Chart} {it : Item} {l : Label}

/-- The values that an item needs. -/
def Item.reads : Item → List Ref
  | line a => a.reads
  | note _ x => [x]

/-- One chart has a line more than the other, or the same lines. -/
structure Chart.Adds (c : Chart) (it : Item) (c' : Chart) : Prop where
  sig : c'.sig = c.sig
  size : c'.size = c.size
  current : c'.current = c.current
  phis : ∀ l, (c'.block l).phis = (c.block l).phis
  exit : ∀ l, (c'.block l).exit = (c.block l).exit
  code : ∀ l, (c'.block l).code =
    (c.block l).code ++ (if l = c.current then it.act?.toList else [])
  incoming : c'.incoming = c.incoming
  home : ∀ x, c.home x ≠ none → c'.home x = c.home x ∧ c'.ty x = c.ty x

theorem Chart.adds_value {x : Ref} (hx : c.home x = none) (op : Operation) :
    c.Adds (.line (.compute x op.compute)) (c.value x op) where
  sig := rfl
  size := rfl
  current := rfl
  phis := push_phis _ _
  exit := push_exit _ _
  code l := push_code _ _ l
  incoming := rfl
  home y hy := by
    have hne : y ≠ x := fun he => hy (he ▸ hx)
    exact ⟨Function.update_of_ne hne _ _, Function.update_of_ne hne _ _⟩

theorem Chart.adds_store (c : Chart) (t : Ty) (p x : Ref) :
    c.Adds (.line (.store t.kind p x)) (c.store t p x) where
  sig := rfl
  size := rfl
  current := rfl
  phis := push_phis _ _
  exit := push_exit _ _
  code l := push_code _ _ l
  incoming := rfl
  home _ _ := ⟨rfl, rfl⟩

theorem Chart.adds_note (c : Chart) (v : Nat) (x : Ref) : c.Adds (.note v x) c where
  sig := rfl
  size := rfl
  current := rfl
  phis _ := rfl
  exit _ := rfl
  code l := by simp [Item.act?]
  incoming := rfl
  home _ _ := ⟨rfl, rfl⟩

theorem Chart.Adds.succs (h : c.Adds it c') : c'.succs = c.succs := by
  funext l
  rw [Chart.succs, h.exit]
  rfl

theorem Chart.Adds.origin (h : c.Adds it c') (p l : Label) (x : Ref) : c'.origin p l x = c.origin p l x := by
  rw [Chart.origin, Chart.origin, h.phis, Chart.carried?, Chart.carried?, h.incoming]

namespace Sheet

/-- The place in the current block where the next item comes. -/
def top (A : Sheet) : Nat :=
  A.last A.chart.current

/-- What is known after an item that is added to the current block. -/
def after (A : Sheet) : Item → Nat → Ref → Prop
  | .line _, w, y => A.known A.chart.current A.top w y
  | .note v x, w, y => w = v ∧ y = x ∨ w ≠ v ∧ A.known A.chart.current A.top w y

/-- The sheet with an item added to the current block, for a chart to which its line is added. -/
def push (A : Sheet) (it : Item) (c : Chart) : Sheet where
  chart := c
  items := Function.update A.items A.chart.current (A.items A.chart.current ++ [it])
  known l j v x := A.known l j v x ∨ l = A.chart.current ∧ j = A.top + 1 ∧ A.after it v x
  dead := A.dead
  strict := A.strict

variable {A B : Sheet} {l p : Label} {i j v : Nat} {x : Ref} {it : Item} {c : Chart}

theorem push_items (A : Sheet) (it : Item) (c : Chart) (l : Label) :
    (A.push it c).items l = A.items l ++ if l = A.chart.current then [it] else [] := by
  simp only [push, Function.update_apply]
  split <;> simp [*]

theorem push_getElem? {it' : Item} : ((A.push it c).items l)[j]? = some it' ↔
    (A.items l)[j]? = some it' ∨ l = A.chart.current ∧ j = A.top ∧ it' = it := by
  rw [push_items]
  by_cases hl : l = A.chart.current
  · subst hl
    rw [if_pos rfl, List.getElem?_append]
    simp only [top, last, true_and]
    split
    · rename_i hj
      constructor
      · exact .inl
      · rintro (h | ⟨rfl, -⟩)
        · exact h
        · exact absurd hj (lt_irrefl _)
    · rename_i hj
      rw [List.getElem?_eq_none (Nat.le_of_not_lt hj), List.getElem?_singleton]
      have : j - (A.items A.chart.current).length = 0 ↔ j = (A.items A.chart.current).length := by
        omega
      simp [this, eq_comm]
  · simp [hl]

theorem push_last_of_ne (hl : l ≠ A.chart.current) : (A.push it c).last l = A.last l := by
  simp [last, push_items, hl]

theorem push_last (A : Sheet) (it : Item) (c : Chart) : (A.push it c).last A.chart.current = A.top + 1 := by
  simp [last, push_items, top]

theorem last_le_push (A : Sheet) (it : Item) (c : Chart) (l : Label) : A.last l ≤ (A.push it c).last l := by
  simp [last, push_items]

theorem edge_of_exit_eq_none (h : (A.chart.block l).exit = none) (p : Label) : ¬ A.Edge l p := by
  simp [Edge, Graph.Edge, Chart.succs, h]

/-! ## Sheets that others go on with -/

/-- The other sheet goes on with this one: it has more items and more edges, and more is known. -/
structure Extends (A B : Sheet) : Prop where
  items : ∀ l, A.items l <+: B.items l
  known : ∀ l j v x, A.known l j v x → B.known l j v x
  dead : ∀ l, A.dead l → B.dead l
  exit : ∀ l e, (A.chart.block l).exit = some e →
    (B.chart.block l).exit = some e ∧ B.items l = A.items l
  strict : B.strict ↔ A.strict

theorem Extends.refl (A : Sheet) : A.Extends A where
  items _ := List.prefix_rfl
  known _ _ _ _ h := h
  dead _ h := h
  exit _ _ h := ⟨h, rfl⟩
  strict := .rfl

section

variable (h : A.Extends B)
include h

theorem Extends.trans {C : Sheet} (h' : B.Extends C) : A.Extends C where
  items l := (h.items l).trans (h'.items l)
  known l j v x hk := h'.known l j v x (h.known l j v x hk)
  dead l hd := h'.dead l (h.dead l hd)
  exit l e he := by
    obtain ⟨hB, hitems⟩ := h.exit l e he
    obtain ⟨hC, hitems'⟩ := h'.exit l e hB
    exact ⟨hC, hitems'.trans hitems⟩
  strict := h'.strict.trans h.strict

theorem Extends.knows (l : Label) (j v : Nat) (x : Ref) (hk : A.Knows l j v x) : B.Knows l j v x :=
  fun hs => h.known l j v x (hk (h.strict.1 hs))

theorem Extends.getElem? (hi : (A.items l)[i]? = some it) : (B.items l)[i]? = some it := by
  obtain ⟨its, hits⟩ := h.items l
  rw [← hits, List.getElem?_append_left (List.getElem?_eq_some_iff.1 hi).1]
  exact hi

theorem Extends.held (hx : A.Held l j x) : B.Held l j x := by
  intro hs
  rcases hx (h.strict.1 hs) with ⟨i, a, hi, ha, hout⟩ | ⟨v, hv⟩
  · exact .inl ⟨i, a, hi, h.getElem? ha, hout⟩
  · exact .inr ⟨v, h.known l j v x hv⟩

end

/-- No edge has led to the block yet, and nothing stands in it. -/
structure Pending (A : Sheet) (l : Label) : Prop where
  lt : l < A.chart.size
  ne : l ≠ Graph.entry
  items : A.items l = []
  phis : (A.chart.block l).phis = []
  exit : (A.chart.block l).exit = none
  unknown : ∀ j v x, ¬ A.known l j v x
  alive : ¬ A.dead l

/-! ## Items -/

theorem extends_push (hexit : A.chart.Unended) (hc : A.chart.Adds it c) : A.Extends (A.push it c) where
  items l := by
    rw [push_items]
    exact List.prefix_append _ _
  known _ _ _ _ h := .inl h
  dead _ h := h
  exit l e he := by
    have hl : l ≠ A.chart.current := by
      rintro rfl
      rw [hexit] at he
      cases he
    exact ⟨(hc.exit l).trans he, by simp [push_items, hl]⟩
  strict := .rfl

/-- An item whose values can be read is added to the current block. -/
theorem Sound.push (hA : A.Sound) (hcons : A.chart.Consistent) (hc : A.chart.Adds it c)
    (hexit : A.chart.Unended)
    (hfresh : ∀ a x, it = .line a → a.out? = some x → A.chart.home x = none)
    (hhome : ∀ v x, it = .note v x → A.chart.home x ≠ none)
    (hheld : ¬ A.dead A.chart.current → ∀ x ∈ it.reads, A.Held A.chart.current A.top x) :
    (A.push it c).Sound := by
  have hext := extends_push hexit hc
  have hedge : ∀ p l, (A.push it c).Edge p l ↔ A.Edge p l := fun p l => by
    rw [Edge, Edge]
    exact Eq.to_iff (congrArg (Graph.Edge · p l) hc.succs)
  have hne : ∀ p l, A.Edge p l → p ≠ A.chart.current := by
    rintro p l h rfl
    exact edge_of_exit_eq_none hexit l h
  -- Behind the new item nothing was known before.
  have htop : ∀ v x, ¬ A.known A.chart.current (A.top + 1) v x := fun v x h =>
    absurd (hA.inside _ _ v x h).2.1 (Nat.not_succ_le_self _)
  refine {
    code := fun l => ?_
    blank := fun l hl => ?_
    inside := ?_
    within := fun l h => hc.size ▸ hA.within l h
    start := ?_
    alive := hA.alive
    line := ?_
    note := ?_
    noted := ?_
    reads := ?_
    exits := ?_
    edge := ?_
    buried := fun p l e h => hA.buried p l ((hedge p l).1 e) h
    phi := fun l x hl hx => ?_
    one := fun p l x hp e hx => ?_
    each := fun l x e hx he => ?_ }
  · show (c.block l).code = _
    rw [hc.code, hA.code, push_items, List.filterMap_append]
    split
    · cases it <;> rfl
    · rfl
  · replace hl : A.chart.size ≤ l := hc.size ▸ hl
    have hlc : l ≠ A.chart.current := fun he => absurd hcons.current (Nat.not_lt.2 (he ▸ hl))
    rw [push_items, if_neg hlc, List.append_nil]
    exact hA.blank l hl
  · rintro l j v x (h | ⟨rfl, rfl, h⟩)
    · obtain ⟨hlt, hj, hx⟩ := hA.inside l j v x h
      refine ⟨hc.size ▸ hlt, hj.trans (last_le_push A it c l), ?_⟩
      show c.home x ≠ none
      rw [(hc.home x hx).1]
      exact hx
    · have hx : A.chart.home x ≠ none := by
        cases it with
        | line a => exact (hA.inside _ _ v x h).2.2
        | note w y =>
          rcases h with ⟨-, rfl⟩ | ⟨-, h⟩
          · exact hhome w x rfl
          · exact (hA.inside _ _ v x h).2.2
      refine ⟨hc.size ▸ hcons.current, (push_last A it c).ge, ?_⟩
      show c.home x ≠ none
      rw [(hc.home x hx).1]
      exact hx
  · rintro v x (h | ⟨-, h, -⟩)
    · exact hA.start v x h
    · cases h
  · rintro l j a v x hitem (h | ⟨rfl, hj, h⟩)
    · rcases push_getElem?.1 hitem with hitem | ⟨rfl, rfl, -⟩
      · exact ⟨(hA.line l j a v x hitem h).1, .inl (hA.line l j a v x hitem h).2⟩
      · exact absurd h (htop v x)
    · obtain rfl : j = A.top := Nat.succ.inj hj
      rcases push_getElem?.1 hitem with hitem | ⟨-, -, rfl⟩
      · exact absurd (List.getElem?_eq_some_iff.1 hitem).1 (lt_irrefl _)
      · refine ⟨fun hout => ?_, .inl h⟩
        exact (hA.inside _ _ v x h).2.2 (hfresh a x rfl hout)
  · rintro l j w y v x hitem (h | ⟨rfl, hj, h⟩)
    · rcases push_getElem?.1 hitem with hitem | ⟨rfl, rfl, -⟩
      · exact (hA.note l j w y v x hitem h).imp_right fun ⟨hne, h⟩ => ⟨hne, .inl h⟩
      · exact absurd h (htop v x)
    · obtain rfl : j = A.top := Nat.succ.inj hj
      rcases push_getElem?.1 hitem with hitem | ⟨-, -, rfl⟩
      · exact absurd (List.getElem?_eq_some_iff.1 hitem).1 (lt_irrefl _)
      · exact h.imp_right fun ⟨hne, h⟩ => ⟨hne, .inl h⟩
  · rintro l j v x hl hitem
    rcases push_getElem?.1 hitem with hitem | ⟨rfl, rfl, rfl⟩
    · exact hext.held (hA.noted l j v x hl hitem)
    · exact hext.held (hheld hl x (List.mem_singleton.2 rfl))
  · rintro l j a hl hitem x hx
    rcases push_getElem?.1 hitem with hitem | ⟨rfl, rfl, rfl⟩
    · exact hext.held (hA.reads l j a hl hitem x hx)
    · exact hext.held (hheld hl x hx)
  · rintro l e hl he x hx
    rw [show (A.push it c).chart = c from rfl, hc.exit] at he
    have hlc : l ≠ A.chart.current := by
      rintro rfl
      rw [hexit] at he
      cases he
    rw [push_last_of_ne hlc]
    exact hext.held (hA.exits l e hl he x hx)
  · rintro p l v x hp e (h | ⟨-, h, -⟩)
    · have he := (hedge p l).1 e
      rw [push_last_of_ne (hne p l he)]
      exact fun hs => .inl ((hc.origin p l x) ▸ hA.edge p l v x hp he h hs)
    · cases h
  · obtain ⟨v, hv⟩ := hA.phi l x hl ((hc.phis l) ▸ hx)
    exact ⟨v, .inl hv⟩
  · show (c.incoming x).countP _ = 1
    rw [hc.incoming]
    exact hA.one p l x hp ((hedge p l).1 e) ((hc.phis l) ▸ hx)
  · have hx : x ∈ (A.chart.block l).phis := (hc.phis l) ▸ hx
    have he : e ∈ A.chart.incoming x := hc.incoming ▸ he
    obtain ⟨h, hty, hhome⟩ := hA.each l x e hx he
    have hx : A.chart.home x ≠ none := by
      rw [(hcons.phi l x).1 hx]
      exact nofun
    refine ⟨(hedge _ l).2 h, ?_⟩
    show c.ty e.ref = c.ty x ∧ c.home e.ref ≠ none
    rw [(hc.home x hx).2, (hc.home _ hhome).2, (hc.home _ hhome).1]
    exact ⟨hty, hhome⟩

end Sheet

/-! ## Blocks -/

/-- One chart goes on with a block for which the other has no values yet. -/
structure Chart.Opens (c : Chart) (l : Label) (xs : List Ref) (c' : Chart) : Prop where
  sig : c'.sig = c.sig
  size : c'.size = c.size
  current : c'.current = l
  other : ∀ k, k ≠ l → c'.block k = c.block k
  phis : (c'.block l).phis = xs
  code : (c'.block l).code = (c.block l).code
  exit : (c'.block l).exit = (c.block l).exit
  home : ∀ x, c.home x ≠ none → c'.home x = c.home x ∧ c'.ty x = c.ty x
  fresh : ∀ x ∈ xs, c.home x = none ∧ c'.home x ≠ none
  incoming : ∀ x, x ∉ xs → c'.incoming x = c.incoming x

theorem Chart.opens_setBlock (h : (c.block l).phis = []) : c.Opens l [] (c.setBlock l) where
  sig := rfl
  size := rfl
  current := rfl
  other _ _ := rfl
  phis := h
  code := rfl
  exit := rfl
  home _ _ := ⟨rfl, rfl⟩
  fresh _ h := absurd h List.not_mem_nil
  incoming _ _ := rfl

theorem Chart.Opens.succs {xs : List Ref} (h : c.Opens l xs c') : c'.succs = c.succs := by
  funext k
  by_cases hk : k = l
  · rw [Chart.succs, hk, h.exit]
    rfl
  · rw [Chart.succs, h.other k hk]
    rfl

/-- One chart is the other with an exit of its current block. The edges to blocks that join values come
with the values to be joined. -/
structure Chart.Exits (c : Chart) (e : Exit) (c' : Chart) : Prop where
  sig : c'.sig = c.sig
  size : c'.size = c.size
  current : c'.current = c.current
  block : ∀ l, c'.block l = (c.terminate e).block l
  home : c'.home = c.home
  ty : c'.ty = c.ty
  incoming : ∀ x, ∃ es, c'.incoming x = c.incoming x ++ es ∧
    ∀ e ∈ es, e.source = (c.current : Int)

theorem Chart.exits_terminate (c : Chart) (e : Exit) : c.Exits e (c.terminate e) where
  sig := rfl
  size := rfl
  current := rfl
  block _ := rfl
  home := rfl
  ty := rfl
  incoming _ := ⟨[], (List.append_nil _).symm, nofun⟩

namespace Chart.Exits

variable {c c' : Chart} {e : Exit}
variable {p : Label}

section

variable (h : c.Exits e c')
include h

theorem phis (l : Label) : (c'.block l).phis = (c.block l).phis := by
  rw [h.block, (terminate_block c e l).1]

theorem code (l : Label) : (c'.block l).code = (c.block l).code := by
  rw [h.block, (terminate_block c e l).2.1]

theorem exit (l : Label) : (c'.block l).exit = if l = c.current then some e else (c.block l).exit := by
  rw [h.block, (terminate_block c e l).2.2]

theorem edge (p l : Label) : Graph.Edge c'.succs p l ↔
    if p = c.current then (l : Int) ∈ e.targets else Graph.Edge c.succs p l := by
  rw [Graph.Edge, Chart.succs, h.exit]
  by_cases hp : p = c.current
  · rw [if_pos hp, if_pos hp]
  · rw [if_neg hp, if_neg hp]
    rfl

/-- What comes from other blocks stays as it was. -/
theorem carried? (hp : p ≠ c.current) (x : Ref) : c'.carried? p x = c.carried? p x := by
  obtain ⟨es, hes, hsource⟩ := h.incoming x
  have hnone : es.find? (fun e => e.source == (p : Int)) = none := by
    refine List.find?_eq_none.2 fun e he => ?_
    rw [hsource e he]
    simpa using fun heq => hp (Int.ofNat_inj.1 heq).symm
  rw [Chart.carried?, Chart.carried?, hes, List.find?_append, hnone, Option.or_none]

theorem countP (hp : p ≠ c.current) (x : Ref) : (c'.incoming x).countP (fun e => e.source == (p : Int)) =
      (c.incoming x).countP (fun e => e.source == (p : Int)) := by
  obtain ⟨es, hes, hsource⟩ := h.incoming x
  have hzero : es.countP (fun e => e.source == (p : Int)) = 0 := by
    refine List.countP_eq_zero.2 fun e he => ?_
    rw [hsource e he]
    simpa using fun heq => hp (Int.ofNat_inj.1 heq).symm
  rw [hes, List.countP_append, hzero, Nat.add_zero]

theorem origin (hp : p ≠ c.current) (l : Label) (x : Ref) : c'.origin p l x = c.origin p l x := by
  rw [Chart.origin, Chart.origin, h.phis, h.carried? hp]

end

end Chart.Exits

namespace Sheet

variable {A B : Sheet} {l p : Label} {i j v : Nat} {x : Ref} {it : Item} {c : Chart}
variable {K : Nat → Ref → Prop} {xs : List Ref} {e : Exit}

def newBlock (A : Sheet) : Sheet :=
  { A with chart := A.chart.newBlock }

theorem extends_newBlock (A : Sheet) : A.Extends A.newBlock :=
  { Extends.refl A with }

theorem Sound.newBlock (hA : A.Sound) : A.newBlock.Sound :=
  { hA with
    blank := fun l hl => hA.blank l (Nat.le_of_succ_le hl)
    inside := fun l j v x h => by
      obtain ⟨hl, hj, hx⟩ := hA.inside l j v x h
      exact ⟨hl.trans (Nat.lt_succ_self _), hj, hx⟩
    within := fun l h => (hA.within l h).trans (Nat.lt_succ_self _) }

/-- The sheet that goes on with a block, at whose head something is known. -/
def enter (A : Sheet) (l : Label) (K : Nat → Ref → Prop) (c : Chart) : Sheet :=
  { A with
    chart := c
    known := fun k j v x => A.known k j v x ∨ k = l ∧ j = 0 ∧ K v x }

theorem extends_enter (hc : A.chart.Opens l xs c) : A.Extends (A.enter l K c) where
  items _ := List.prefix_rfl
  known _ _ _ _ h := .inl h
  dead _ h := h
  exit k e he := by
    refine ⟨?_, rfl⟩
    show (c.block k).exit = some e
    by_cases hk : k = l
    · rw [hk, hc.exit, ← hk]
      exact he
    · rw [hc.other k hk]
      exact he
  strict := .rfl

/-- A block is entered in which all that is known comes along on every edge. -/
theorem Sound.enter (hA : A.Sound) (hcons : A.chart.Consistent) (hl : A.Pending l) (hc : A.chart.Opens l xs c)
    (hhome : ∀ v x, K v x → c.home x ≠ none)
    (hedge : ∀ p v x, ¬ A.dead p → A.Edge p l → K v x → A.Knows p (A.last p) v (c.origin p l x))
    (hphi : ∀ x ∈ xs, ∃ v, K v x) (hone : ∀ p x, ¬ A.dead p → A.Edge p l → x ∈ xs →
      (c.incoming x).countP (fun e => e.source == (p : Int)) = 1)
    (heach : ∀ x ∈ xs, ∀ e ∈ c.incoming x, A.Edge e.source.toNat l ∧ c.ty e.ref = c.ty x ∧
      c.home e.ref ≠ none) : (A.enter l K c).Sound := by
  have hext : A.Extends (A.enter l K c) := extends_enter hc
  have hsame : ∀ p k, (A.enter l K c).Edge p k ↔ A.Edge p k := fun p k =>
    Eq.to_iff (congrArg (Graph.Edge · p k) hc.succs)
  have hold : ∀ k x, k ≠ l → x ∈ (c.block k).phis →
      x ∈ (A.chart.block k).phis ∧ A.chart.home x ≠ none ∧ c.incoming x = A.chart.incoming x := by
    intro k x hk hx
    rw [hc.other k hk] at hx
    have hx' : A.chart.home x ≠ none := by
      rw [(hcons.phi k x).1 hx]
      exact nofun
    exact ⟨hx, hx', hc.incoming x fun hmem => hx' (hc.fresh x hmem).1⟩
  refine {
    code := fun k => ?_
    blank := fun k hk => hA.blank k (hc.size ▸ hk)
    inside := ?_
    within := fun k h => hc.size ▸ hA.within k h
    start := ?_
    alive := hA.alive
    line := ?_
    note := ?_
    noted := fun k j v x hk hitem => hext.held (hA.noted k j v x hk hitem)
    reads := fun k j a hk hitem x hx => hext.held (hA.reads k j a hk hitem x hx)
    exits := fun k e hk he x hx => ?_
    edge := ?_
    buried := fun p k e h => hA.buried p k ((hsame p k).1 e) h
    phi := fun k x hk hx => ?_
    one := fun p k x hp e hx => ?_
    each := fun k x e hx he => ?_ }
  · show (c.block k).code = _
    by_cases hk : k = l
    · rw [hk, hc.code]
      exact hA.code l
    · rw [hc.other k hk]
      exact hA.code k
  · rintro k j v x (h | ⟨rfl, rfl, h⟩)
    · obtain ⟨hlt, hj, hx⟩ := hA.inside k j v x h
      refine ⟨hc.size ▸ hlt, hj, ?_⟩
      show c.home x ≠ none
      rw [(hc.home x hx).1]
      exact hx
    · exact ⟨hc.size ▸ hl.lt, Nat.zero_le _, hhome v x h⟩
  · rintro v x (h | ⟨h, -⟩)
    · exact hA.start v x h
    · exact hl.ne h.symm
  · rintro k j a v x hitem (h | ⟨-, h, -⟩)
    · exact ⟨(hA.line k j a v x hitem h).1, .inl (hA.line k j a v x hitem h).2⟩
    · cases h
  · rintro k j w y v x hitem (h | ⟨-, h, -⟩)
    · exact (hA.note k j w y v x hitem h).imp_right fun ⟨hne, h⟩ => ⟨hne, .inl h⟩
    · cases h
  · refine hext.held (hA.exits k e hk ?_ x hx)
    change (c.block k).exit = some e at he
    by_cases hkl : k = l
    · rw [hkl, hc.exit] at he
      rw [hkl]
      exact he
    · rwa [hc.other k hkl] at he
  · rintro p k v x hp e (h | ⟨rfl, -, h⟩)
    · have he := (hsame p k).1 e
      have hkl : k ≠ l := by
        rintro rfl
        exact hl.unknown 0 v x h
      have horigin : c.origin p k x = A.chart.origin p k x := by
        unfold Chart.origin
        rw [hc.other k hkl]
        split
        · rename_i hx
          rw [Chart.carried?, (hold k x hkl ((hc.other k hkl).symm ▸ hx)).2.2]
          rfl
        · rfl
      exact fun hs => .inl (horigin ▸ hA.edge p k v x hp he h hs)
    · exact fun hs => .inl (hedge p v x hp ((hsame p k).1 e) h hs)
  · by_cases hkl : k = l
    · subst hkl
      obtain ⟨v, hv⟩ := hphi x (hc.phis ▸ hx)
      exact ⟨v, .inr ⟨rfl, rfl, hv⟩⟩
    · obtain ⟨v, hv⟩ := hA.phi k x hk (hold k x hkl hx).1
      exact ⟨v, .inl hv⟩
  · show (c.incoming x).countP _ = 1
    by_cases hkl : k = l
    · subst hkl
      exact hone p x hp ((hsame p k).1 e) (hc.phis ▸ hx)
    · rw [(hold k x hkl hx).2.2]
      exact hA.one p k x hp ((hsame p k).1 e) (hold k x hkl hx).1
  · show _ ∧ c.ty e.ref = c.ty x ∧ c.home e.ref ≠ none
    by_cases hkl : k = l
    · subst hkl
      obtain ⟨h, hrest⟩ := heach x (hc.phis ▸ hx) e he
      exact ⟨(hsame _ k).2 h, hrest⟩
    · obtain ⟨hx, hhx, hin⟩ := hold k x hkl hx
      obtain ⟨h, hty, hhe⟩ := hA.each k x e hx (hin ▸ he)
      refine ⟨(hsame _ k).2 h, ?_⟩
      rw [(hc.home x hhx).2, (hc.home _ hhe).2, (hc.home _ hhe).1]
      exact ⟨hty, hhe⟩

/-- The sheet that goes on with a block which is given up. -/
def bury (A : Sheet) (l : Label) : Sheet :=
  { A with chart := A.chart.setBlock l, dead := fun k => A.dead k ∨ k = l }

theorem extends_bury (A : Sheet) (l : Label) : A.Extends (A.bury l) where
  items _ := List.prefix_rfl
  known _ _ _ _ h := h
  dead _ h := .inl h
  exit _ _ h := ⟨h, rfl⟩
  strict := .rfl

/-- A block to which no edge leads may be given up. -/
theorem Sound.bury (hA : A.Sound) (hl : A.Pending l) (hedge : ∀ p, A.Edge p l → A.dead p) :
    (A.bury l).Sound := by
  have hlive : ∀ {k}, ¬ (A.bury l).dead k → ¬ A.dead k := fun h hk => h (.inl hk)
  exact { hA with
    within := by
      rintro k (h | rfl)
      · exact hA.within k h
      · exact hl.lt
    alive := by
      rintro (h | h)
      · exact hA.alive h
      · exact hl.ne h.symm
    noted := fun k j v x hk => hA.noted k j v x (hlive hk)
    reads := fun k j a hk => hA.reads k j a (hlive hk)
    exits := fun k e hk => hA.exits k e (hlive hk)
    edge := fun p k v x hp => hA.edge p k v x (hlive hp)
    buried := by
      rintro p k e (h | rfl)
      · exact .inl (hA.buried p k e h)
      · exact .inl (hedge p e)
    phi := fun k x hk => hA.phi k x (hlive hk)
    one := fun p k x hp => hA.one p k x (hlive hp) }

/-- The sheet whose current block has an exit. -/
def leave (A : Sheet) (c : Chart) : Sheet :=
  { A with chart := c }

theorem extends_leave (hc : A.chart.Exits e c) (hexit : A.chart.Unended) : A.Extends (A.leave c) where
  items _ := List.prefix_rfl
  known _ _ _ _ h := h
  dead _ h := h
  exit l e' he := by
    refine ⟨?_, rfl⟩
    show (c.block l).exit = some e'
    rw [hc.exit, if_neg, he]
    rintro rfl
    rw [hexit] at he
    cases he
  strict := .rfl

/-- The current block is left for blocks at whose heads nothing is known but what comes along. -/
theorem Sound.leave (hA : A.Sound) (hc : A.chart.Exits e c) (hexit : A.chart.Unended)
    (hreads : ¬ A.dead A.chart.current → ∀ x ∈ e.reads, A.Held A.chart.current A.top x)
    (halive : ¬ A.dead A.chart.current → ∀ t : Label, (t : Int) ∈ e.targets → ¬ A.dead t)
    (hedge : ¬ A.dead A.chart.current → ∀ t : Label, (t : Int) ∈ e.targets → ∀ v x,
      A.known t 0 v x → A.Knows A.chart.current A.top v (c.origin A.chart.current t x))
    (hone : ¬ A.dead A.chart.current → ∀ t : Label, (t : Int) ∈ e.targets → ∀ x ∈ (A.chart.block t).phis,
        (c.incoming x).countP (fun e => e.source == (A.chart.current : Int)) = 1)
    (heach : ∀ l x, x ∈ (A.chart.block l).phis → ∀ e' ∈ c.incoming x, e' ∉ A.chart.incoming x →
      (l : Int) ∈ e.targets ∧ A.chart.ty e'.ref = A.chart.ty x ∧ A.chart.home e'.ref ≠ none) :
    (A.leave c).Sound := by
  have hsame : ∀ p l, (A.leave c).Edge p l ↔
      if p = A.chart.current then (l : Int) ∈ e.targets else A.Edge p l := hc.edge
  have hold : ∀ p l, A.Edge p l → (A.leave c).Edge p l := by
    intro p l h
    rw [hsame, if_neg]
    · exact h
    · rintro rfl
      exact edge_of_exit_eq_none hexit l h
  exact { hA with
    code := fun l => (hc.code l).trans (hA.code l)
    blank := fun l hl => hA.blank l (hc.size ▸ hl)
    inside := fun l j v x h => by
      obtain ⟨hl, hj, hx⟩ := hA.inside l j v x h
      refine ⟨hc.size ▸ hl, hj, ?_⟩
      show c.home x ≠ none
      rwa [hc.home]
    within := fun l h => hc.size ▸ hA.within l h
    exits := fun l e' hl he x hx => by
      change (c.block l).exit = some e' at he
      rw [hc.exit] at he
      split at he
      · rename_i hlc
        subst hlc
        cases he
        exact hreads hl x hx
      · exact hA.exits l e' hl he x hx
    edge := fun p l v x hp h hx => by
      show A.Knows p (A.last p) v (c.origin p l x)
      rw [hsame] at h
      split at h
      · rename_i hpc
        subst hpc
        exact hedge hp l h v x hx
      · rename_i hpc
        rw [hc.origin hpc]
        exact hA.edge p l v x hp h hx
    buried := fun p l h hl => by
      rw [hsame] at h
      split at h
      · rename_i hpc
        subst hpc
        by_contra hp
        exact halive hp l h hl
      · exact hA.buried p l h hl
    phi := fun l x hl hx => hA.phi l x hl ((hc.phis l) ▸ hx)
    one := fun p l x hp h hx => by
      show (c.incoming x).countP _ = 1
      replace hx : x ∈ (A.chart.block l).phis := (hc.phis l) ▸ hx
      rw [hsame] at h
      split at h
      · rename_i hpc
        subst hpc
        exact hone hp l h x hx
      · rename_i hpc
        rw [hc.countP hpc]
        exact hA.one p l x hp h hx
    each := fun l x e' hx he' => by
      show _ ∧ c.ty e'.ref = c.ty x ∧ c.home e'.ref ≠ none
      rw [hc.ty, hc.home]
      replace hx : x ∈ (A.chart.block l).phis := (hc.phis l) ▸ hx
      by_cases hmem : e' ∈ A.chart.incoming x
      · obtain ⟨h, hrest⟩ := hA.each l x e' hx hmem
        exact ⟨hold _ l h, hrest⟩
      obtain ⟨ht, hrest⟩ := heach l x hx e' he' hmem
      refine ⟨?_, hrest⟩
      obtain ⟨es, hes, hsource⟩ := hc.incoming x
      have hnew : e' ∈ es :=
        (List.mem_append.1 (hes ▸ he' : e' ∈ A.chart.incoming x ++ es)).resolve_left hmem
      rw [hsource e' hnew, Int.toNat_natCast, hsame, if_pos rfl]
      exact ht }

/-! ## More knowledge -/

/-- The sheet on which more is known everywhere in some blocks. -/
def widen (A : Sheet) (R : Label → Prop) (K : Nat → Ref → Prop) : Sheet :=
  { A with known := fun l j v x => A.known l j v x ∨ R l ∧ j ≤ A.last l ∧ K v x }

theorem extends_widen (A : Sheet) (R : Label → Prop) (K : Nat → Ref → Prop) : A.Extends (A.widen R K) where
  items _ := List.prefix_rfl
  known _ _ _ _ h := .inl h
  dead _ h := h
  exit _ _ h := ⟨h, rfl⟩
  strict := .rfl

/-- A value holds a variable in all blocks of a region if it does so where control enters the region, and
the region neither makes the value nor notes another one for the variable. -/
theorem Sound.widen (hA : A.Sound) {R : Label → Prop} (hR : ∀ l, R l → l < A.chart.size ∧ l ≠ Graph.entry)
    (hhome : ∀ v x, K v x → A.chart.home x ≠ none) (hphis : ∀ l v x, R l → K v x → x ∉ (A.chart.block l).phis)
    (houts : ∀ l (j : Nat) a v x, R l → K v x → (A.items l)[j]? = some (.line a) → a.out? ≠ some x)
    (hnotes : ∀ l (j : Nat) v x y, R l → K v x → (A.items l)[j]? ≠ some (.note v y))
    (hedge : ∀ p l v x, R l → K v x → ¬ A.dead p → A.Edge p l → ¬ R p → A.Knows p (A.last p) v x) :
    (A.widen R K).Sound := by
  have hext := extends_widen A R K
  exact { hA with
    inside := by
      rintro l j v x (h | ⟨hl, hj, hx⟩)
      · exact hA.inside l j v x h
      · exact ⟨(hR l hl).1, hj, hhome v x hx⟩
    start := by
      rintro v x (h | ⟨hl, -⟩)
      · exact hA.start v x h
      · exact (hR _ hl).2 rfl
    line := by
      rintro l j a v x hitem (h | ⟨hl, hj, hx⟩)
      · exact ⟨(hA.line l j a v x hitem h).1, .inl (hA.line l j a v x hitem h).2⟩
      · exact ⟨houts l j a v x hl hx hitem, .inr ⟨hl, Nat.le_of_succ_le hj, hx⟩⟩
    note := by
      rintro l j w y v x hitem (h | ⟨hl, hj, hx⟩)
      · exact (hA.note l j w y v x hitem h).imp_right fun ⟨hne, h⟩ => ⟨hne, .inl h⟩
      · refine .inr ⟨?_, .inr ⟨hl, Nat.le_of_succ_le hj, hx⟩⟩
        rintro rfl
        exact hnotes l j v x y hl hx hitem
    noted := fun l j v x hl hitem => hext.held (hA.noted l j v x hl hitem)
    reads := fun l j a hl hitem x hx => hext.held (hA.reads l j a hl hitem x hx)
    exits := fun l e hl he x hx => hext.held (hA.exits l e hl he x hx)
    edge := by
      rintro p l v x hp e (h | ⟨hl, -, hx⟩)
      · exact hext.knows _ _ _ _ (hA.edge p l v x hp e h)
      · rw [show (A.widen R K).chart = A.chart from rfl, Chart.origin_of_notMem (hphis l v x hl hx)]
        by_cases hpR : R p
        · exact fun _ => .inr ⟨hpR, le_rfl, hx⟩
        · exact hext.knows _ _ _ _ (hedge p l v x hl hx hp e hpR)
    phi := fun l x hl hx => (hA.phi l x hl hx).imp fun _ => .inl }

end Sheet

end Codesmith.Gen
