import Codesmith.Proofs.Chart.Mimic

/-!
# Charts with other numbers

The back ends number values differently. `Chart.Renames` says that two charts differ only in that. Such
charts are well formed alike and end alike, and the same call made on both keeps the relation.
-/

namespace Codesmith.Gen

variable {f g : Ref → Ref}

theorem Compute.rename_congr {c : Compute} (h : ∀ x ∈ c.reads, f x = g x) : c.rename f = c.rename g := by
  cases c <;> simp only [Compute.reads, List.mem_cons, List.not_mem_nil, or_false, forall_eq_or_imp,
    forall_eq] at h <;> simp only [Compute.rename, h]

theorem Operation.compute_rename (f : Ref → Ref) (op : Operation) :
    (op.rename f).compute = op.compute.rename f := by
  cases op <;> rfl

theorem Act.rename_congr {a : Act} (h : ∀ x ∈ a.reads, f x = g x) (hout : ∀ x, a.out? = some x → f x = g x) :
    a.rename f = a.rename g := by
  cases a with
  | compute out c =>
    simp only [rename]
    rw [hout out rfl, Compute.rename_congr h]
  | arg out n =>
    simp only [rename]
    rw [hout out rfl]
  | store k p x =>
    simp only [rename]
    rw [h p (by simp [reads]), h x (by simp [reads])]

theorem Exit.rename_congr {e : Exit} (h : ∀ x ∈ e.reads, f x = g x) : e.rename f = e.rename g := by
  cases e with
  | jump t => rfl
  | branch x yes no => rw [rename, rename, h x (List.mem_singleton.2 rfl)]
  | ret x =>
    cases x with
    | none => rfl
    | some x => rw [rename, rename, Option.map_some, Option.map_some, h x (List.mem_singleton.2 rfl)]

def ChartBlock.rename (f : Ref → Ref) (b : ChartBlock) : ChartBlock where
  phis := b.phis.map f
  code := b.code.map (Act.rename f)
  exit := b.exit.map (Exit.rename f)

namespace Chart

/-- The second chart is the first with other numbers for its values. A number that is no value stays
one. -/
structure Renames (c c' : Chart) (f : Ref → Ref) : Prop where
  sig : c'.sig = c.sig
  size : c'.size = c.size
  current : c'.current = c.current
  block : ∀ l, c'.block l = (c.block l).rename f
  home : ∀ x, c'.home (f x) = c.home x
  ty : ∀ x, c'.ty (f x) = c.ty x
  incoming : ∀ x, c.home x ≠ none →
    c'.incoming (f x) = (c.incoming x).map fun e => ⟨e.source, f e.ref⟩
  inj : ∀ x y, c.home x ≠ none → c.home y ≠ none → f x = f y → x = y
  absent : ∀ x, c.home x = none → f x = min x noRef

variable {c c' : Chart} {f : Ref → Ref} {l : Label} {i : Nat} {x x' : Ref}

section

variable (h : c.Renames c' f)
include h

theorem Renames.absent_neg (hx : c.home x = none) (h0 : x < 0) : f x = x :=
  (h.absent x hx).trans (Int.min_eq_left (Int.le_sub_one_of_lt h0))

theorem Renames.succs : c'.succs = c.succs := by
  funext l
  rw [Chart.succs, Chart.succs, h.block]
  cases he : (c.block l).exit with
  | none => simp [ChartBlock.rename, he]
  | some e => simp [ChartBlock.rename, he]

theorem Renames.length (l : Label) : c'.length l = c.length l := by
  rw [Chart.length, h.block]
  exact List.length_map _

theorem Renames.available_iff : c'.Available l i (f x) ↔ c.Available l i x := by
  simp only [Available, h.home, h.succs]

theorem Renames.mem_phis_iff (hc : c.Consistent) (hx : c.home x ≠ none) :
    f x ∈ (c'.block l).phis ↔ x ∈ (c.block l).phis := by
  rw [h.block]
  constructor
  · intro hmem
    obtain ⟨y, hy, hyx⟩ := List.mem_map.1 hmem
    rwa [← h.inj y x (by rw [(hc.phi l y).1 hy]; exact nofun) hx hyx]
  · exact List.mem_map_of_mem

theorem Renames.joins_iff (hx : c.home x ≠ none) : c'.Joins l (f x) ↔ c.Joins l x := by
  have hone : ∀ p : Label, (c'.incoming (f x)).countP (fun e => e.source == (p : Int)) =
      (c.incoming x).countP fun e => e.source == (p : Int) := by
    intro p
    rw [h.incoming x hx, List.countP_map]
    rfl
  constructor
  · intro hj
    refine ⟨fun p hp e => ?_, fun e he hr => ?_⟩
    · rw [← hone]
      exact hj.one p (by rwa [h.succs]) (by rwa [h.succs])
    · have := hj.each ⟨e.source, f e.ref⟩
        (by rw [h.incoming x hx]; exact List.mem_map.2 ⟨e, he, rfl⟩)
        (by rwa [h.succs])
      rwa [h.succs, h.ty, h.ty, h.length, h.available_iff] at this
  · intro hj
    refine ⟨fun p hp e => ?_, fun e he hr => ?_⟩
    · rw [hone]
      rw [h.succs] at hp e
      exact hj.one p hp e
    · rw [h.incoming x hx] at he
      obtain ⟨v, hv, rfl⟩ := List.mem_map.1 he
      rw [h.succs] at hr ⊢
      dsimp only
      rw [h.ty, h.ty, h.length, h.available_iff]
      exact hj.each v hv hr

theorem Renames.wellFormed_iff (hc : c.Consistent) : c'.WellFormed ↔ c.WellFormed := by
  have hphi : ∀ {l x}, x ∈ (c.block l).phis → c.home x ≠ none := fun {l x} hx => by
    rw [(hc.phi l x).1 hx]
    exact nofun
  constructor
  · intro hw
    obtain ⟨hended, hjoins, hlines, hexits⟩ := hw
    simp only [h.succs, h.block, h.length] at hended hjoins hlines hexits
    constructor
    · intro l hl he
      exact hended l hl (Option.map_eq_none_iff.2 he)
    · intro l hl x hx
      exact (h.joins_iff (hphi hx)).1 (hjoins l hl (f x) (List.mem_map_of_mem hx))
    · intro l hl i a ha x hx
      refine h.available_iff.1 (hlines l hl i (a.rename f) ?_ (f x) ?_)
      · rw [ChartBlock.rename, List.getElem?_map, ha]
        rfl
      · rw [Act.reads_rename]
        exact List.mem_map_of_mem hx
    · intro l hl e he x hx
      refine h.available_iff.1 (hexits l hl (e.rename f) ?_ (f x) ?_)
      · rw [ChartBlock.rename, he]
        rfl
      · rw [Exit.reads_rename]
        exact List.mem_map_of_mem hx
  · intro hw
    constructor <;> simp only [h.succs, h.block, h.length]
    · intro l hl he
      exact hw.ended l hl (Option.map_eq_none_iff.1 he)
    · intro l hl x hx
      obtain ⟨y, hy, rfl⟩ := List.mem_map.1 hx
      exact (h.joins_iff (hphi hy)).2 (hw.joins l hl y hy)
    · intro l hl i a ha x hx
      rw [ChartBlock.rename, List.getElem?_map] at ha
      obtain ⟨b, hb, rfl⟩ := Option.map_eq_some_iff.1 ha
      rw [Act.reads_rename] at hx
      obtain ⟨y, hy, rfl⟩ := List.mem_map.1 hx
      exact h.available_iff.2 (hw.lines l hl i b hb y hy)
    · intro l hl e he x hx
      obtain ⟨e', he', rfl⟩ := Option.map_eq_some_iff.1 he
      rw [Exit.reads_rename] at hx
      obtain ⟨y, hy, rfl⟩ := List.mem_map.1 hx
      exact h.available_iff.2 (hw.exits l hl e' he' y hy)

theorem Renames.mimics (hw : c.WellFormed) (hc : c.Consistent) : c.Mimics c' f where
  code l _ := by rw [h.block]; rfl
  exit l _ := by rw [h.block]; rfl
  apart l i a x y _ ha hy hx he := by
    refine h.inj x y hx.home_ne_none ?_ he
    rw [hc.out l i a y ha hy]
    exact nofun
  enter p l v v' hp e hv x hx := by
    have hhome := hx.home_ne_none
    unfold enter
    simp only [h.mem_phis_iff hc hhome]
    split
    · rename_i hmem
      obtain ⟨y, hy, -, hav, -⟩ := (hw.joins l (hp.step e) x hmem).carried hp e
      have hcarried : c'.carried? p (f x) = (c.carried? p x).map f := by
        rw [carried?, carried?, h.incoming x hhome, List.find?_map, Option.map_map, Option.map_map]
        rfl
      rw [hcarried, hy]
      exact hv y hav
    · rename_i hmem
      exact hv x ((hx.of_edge hc e).resolve_left hmem)

end

/-! ## Calls on both charts -/

theorem renames_ofSig (sig : Signature) : (ofSig sig).Renames (ofSig sig)
    fun x => if (ofSig sig).home x = none then min x noRef else x := by
  have hcases : ∀ x, (ofSig sig).home x = none ∨ ∃ i : Nat, i < sig.params.length ∧ x = (i : Int) := by
    intro x
    cases hx : (ofSig sig).home x with
    | none => exact .inl rfl
    | some p =>
      obtain ⟨i, hi, rfl, -⟩ := ofSig_home.1 hx
      exact .inr ⟨i, hi, rfl⟩
  have hsome : ∀ i : Nat, i < sig.params.length → (ofSig sig).home (i : Int) ≠ none := by
    intro i hi
    rw [ofSig_home.2 ⟨i, hi, rfl, rfl⟩]
    exact nofun
  have hneg : ∀ x, (ofSig sig).home (min x noRef) = none := fun x => by
    by_contra hne
    exact absurd ((consistent_ofSig sig).nonneg _ hne) (by simp [noRef])
  refine ⟨rfl, rfl, rfl, fun l => ?_, fun x => ?_, fun x => ?_, fun x _ => rfl,
    fun x y hx hy h => ?_, fun x hx => if_pos hx⟩
  · simp only [ofSig, ChartBlock.rename]
    split
    · simp only [List.map_nil, List.map_map, Option.map_none, ChartBlock.mk.injEq, true_and, and_true]
      refine List.map_congr_left fun i hi => ?_
      exact (congrArg (Act.arg · i) (if_neg (hsome i (List.mem_range.1 hi)))).symm
    · rfl
  · rcases hcases x with hx | ⟨i, hi, rfl⟩
    · rw [if_pos hx, hneg, hx]
    · rw [if_neg (hsome i hi)]
  · rcases hcases x with hx | ⟨i, hi, rfl⟩
    · rw [if_pos hx, (consistent_ofSig sig).ty_eq_void hx, (consistent_ofSig sig).ty_eq_void (hneg x)]
    · rw [if_neg (hsome i hi)]
  · rwa [if_neg hx, if_neg hy] at h

section

variable (h : c.Renames c' f)
include h

theorem Renames.newBlock : c.newBlock.Renames c'.newBlock f :=
  { h with size := congrArg (· + 1) h.size }

theorem Renames.setBlock (l : Label) : (c.setBlock l).Renames (c'.setBlock l) f :=
  { h with current := rfl }

theorem Renames.edit (l : Label) {u u' : ChartBlock → ChartBlock} (hu : ∀ b, (u b).rename f = u' (b.rename f)) :
    (c.edit l u).Renames (c'.edit l u') f := by
  refine { h with block := fun k => ?_ }
  rw [edit_block, edit_block]
  split
  · rw [h.block, hu]
  · exact h.block k

theorem Renames.push (a : Act) : (c.push a).Renames (c'.push (a.rename f)) f := by
  rw [Chart.push, Chart.push, h.current]
  exact h.edit c.current fun b => by simp [ChartBlock.rename]

theorem Renames.store (t : Ty) (p x : Ref) : (c.store t p x).Renames (c'.store t (f p) (f x)) f :=
  h.push (.store t.kind p x)

theorem Renames.terminate (e : Exit) : (c.terminate e).Renames (c'.terminate (e.rename f)) f := by
  rw [Chart.terminate, Chart.terminate, h.current]
  exact h.edit c.current fun b => rfl

theorem Renames.join {id : Ref} (hid : c.home id ≠ none) (source : BlockId) (x : Ref) :
    (c.join id source x).Renames (c'.join (f id) source (f x)) f := by
  refine { h with incoming := fun y hy => ?_ }
  simp only [Chart.join, Function.update_apply]
  by_cases hyi : y = id
  · rw [if_pos hyi, hyi, if_pos rfl, h.incoming id hid, List.map_append]
    rfl
  · rw [if_neg hyi, if_neg fun he => hyi (h.inj y id hy hid he)]
    exact h.incoming y hy

end

section Fresh

variable (hc : c.Consistent) (hx : c.home x = none)
include hc hx

theorem Consistent.incoming_fresh : c.incoming x = [] := by
  by_contra hne
  obtain ⟨l, hl⟩ := hc.joint x hne
  rw [hx] at hl
  cases hl

/-- A name for a new value does not concern the blocks. -/
theorem Consistent.rename_update (l : Label) :
    (c.block l).rename (Function.update f x x') = (c.block l).rename f := by
  have hhome : ∀ {y}, c.home y ≠ none → Function.update f x x' y = f y := by
    intro y hy
    have hne : y ≠ x := fun he => hy (he ▸ hx)
    exact Function.update_of_ne hne _ _
  simp only [ChartBlock.rename, ChartBlock.mk.injEq]
  refine ⟨List.map_congr_left fun y hy => hhome ?_, List.map_congr_left fun a ha => ?_, ?_⟩
  · rw [(hc.phi l y).1 hy]
    exact nofun
  · obtain ⟨i, hi⟩ := List.mem_iff_getElem?.1 ha
    refine Act.rename_congr (fun y hy => hhome (hc.typed y ((hc.lines l a ha).reads y hy)))
      fun y hy => hhome ?_
    rw [hc.out l i a y hi hy]
    exact nofun
  · cases he : (c.block l).exit with
    | none => rfl
    | some e =>
      exact congrArg some (Exit.rename_congr fun y hy => hhome (hc.typed y ((hc.exits l e he).reads hy)))

variable (hc' : c'.Consistent) (hx' : c'.home x' = none) (h0' : 0 ≤ x')
include hc' hx' h0'

section

variable (h : c.Renames c' f) (hj : ∀ y, ∀ e ∈ c.incoming y, e.ref ≠ x)
include h hj

theorem Renames.define (p : Home) (t : Ty) :
    (c.define x p t).Renames (c'.define x' p t) (Function.update f x x') := by
  have hne : ∀ {y}, y ≠ x → f y ≠ x' := by
    intro y hy he
    by_cases hh : c.home y = none
    · rw [← he, h.absent y hh] at h0'
      exact absurd h0' (by simp [noRef])
    · exact hh ((h.home y).symm.trans (he ▸ hx'))
  refine ⟨h.sig, h.size, h.current, fun l => ?_, fun y => ?_, fun y => ?_, fun y hy => ?_,
    fun y z hy hz hyz => ?_, fun y hy => ?_⟩
  · exact (h.block l).trans (hc.rename_update hx l).symm
  · simp only [Chart.define]
    by_cases hy : y = x
    · rw [hy, Function.update_self, Function.update_self, Function.update_self]
    · rw [Function.update_of_ne hy, Function.update_of_ne hy, Function.update_of_ne (hne hy), h.home]
  · simp only [Chart.define]
    by_cases hy : y = x
    · rw [hy, Function.update_self, Function.update_self, Function.update_self]
    · rw [Function.update_of_ne hy, Function.update_of_ne hy, Function.update_of_ne (hne hy), h.ty]
  · simp only [Chart.define] at hy ⊢
    by_cases hyx : y = x
    · rw [hyx, Function.update_self, hc.incoming_fresh hx, hc'.incoming_fresh hx']
      rfl
    · rw [Function.update_of_ne hyx] at hy
      rw [Function.update_of_ne hyx, h.incoming y hy]
      refine List.map_congr_left fun e he => ?_
      congr 1
      exact (Function.update_of_ne (hj y e he) _ _).symm
  · simp only [Chart.define] at hy hz
    by_cases hyx : y = x <;> by_cases hzx : z = x
    · rw [hyx, hzx]
    · rw [hyx, Function.update_self, Function.update_of_ne hzx] at hyz
      exact absurd hyz.symm (hne hzx)
    · rw [hzx, Function.update_self, Function.update_of_ne hyx] at hyz
      exact absurd hyz (hne hyx)
    · rw [Function.update_of_ne hyx, Function.update_of_ne hzx] at hyz
      rw [Function.update_of_ne hyx] at hy
      rw [Function.update_of_ne hzx] at hz
      exact h.inj y z hy hz hyz
  · simp only [Chart.define] at hy
    by_cases hyx : y = x
    · rw [hyx, Function.update_self] at hy
      cases hy
    · rw [Function.update_of_ne hyx] at hy ⊢
      exact h.absent y hy

theorem Renames.value {op : Operation} (hop : op.Fits c.ty) :
    (c.value x op).Renames (c'.value x' (op.rename f)) (Function.update f x x') := by
  have hdef := h.define hc hx hc' hx' h0' hj ⟨c.current, some (c.length c.current)⟩ op.ty
  have hact : (Act.compute x op.compute).rename (Function.update f x x') =
      .compute x' (op.rename f).compute := by
    rw [Act.rename, Function.update_self, Operation.compute_rename]
    refine congrArg _ (Compute.rename_congr fun y hy => ?_)
    have hne : y ≠ x := fun he => hc.typed y ((hop.act x).reads y hy) (he ▸ hx)
    exact Function.update_of_ne hne _ _
  rw [Chart.value, Chart.value, Operation.ty_rename, h.current, h.length, ← hact]
  exact hdef.push _

theorem Renames.phi (l : Label) (t : Ty) :
    (c.phi x l t).Renames (c'.phi x' l t) (Function.update f x x') := by
  refine (h.define hc hx hc' hx' h0' hj ⟨l, none⟩ t).edit l fun b => ?_
  simp [ChartBlock.rename]

end

end Fresh

end Chart

end Codesmith.Gen
