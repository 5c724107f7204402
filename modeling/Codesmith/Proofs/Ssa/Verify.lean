import Codesmith.Proofs.Chart.Available
import Codesmith.Proofs.Ssa.Check

/-!
# The verifier of functions in single assignment form

`Func.Draws` says that the reached part of a pruned function is that of a chart. Pruning a function
that describes a chart leads there, and the verifier accepts what it leads to exactly if the chart is
well formed.
-/

namespace Codesmith.Ssa.Func

open Gen (Act Chart ChartBlock Home)
variable {id i n : Nat} {e : Gen.Exit} {x : Expr} {b : Block} {cb : ChartBlock} {a : Act} {l : Label}

/-- The reached part of the function is that of the chart. -/
structure Draws (f : Func) (c : Chart) : Prop where
  error : f.error = none
  sig : f.sig = c.sig
  args : f.args = List.range c.sig.params.length
  size : f.blocks.size = c.size
  succs : f.succsOf = c.succs
  pruned : f.reach.isEmpty = false
  reach : ∀ l : Label, f.reachable l = true ↔ Graph.Reaches c.succs l
  block : ∀ l, Graph.Reaches c.succs l → ∃ b, f.blocks[l]? = some b ∧ f.Shows b (c.block l)
  types : ∀ x, c.home x ≠ none → f.tyOf x = c.ty x
  home : ∀ x p, c.home x = some p → ∃ e, f.entryOf? x = some e ∧ e.block = p.block
  phi : ∀ x l, c.home x = some ⟨l, none⟩ → Graph.Reaches c.succs l →
    f.phi? x = some (((c.incoming x).filter fun e => f.reachable e.source).map branchOf)
  /-- A phi that joins what is no value joins something without a type. -/
  loose : ∀ x, ∀ e ∈ c.incoming x, c.home e.ref = none → f.tyOf e.ref = .void

variable {f : Func} {c : Chart} {gr : Graph}

/-! ## Pruning -/

theorem succsOf_eq (hc : c.Consistent) (hsize : f.blocks.size = c.size)
    (hblock : ∀ (l : Label) (b : Block), f.blocks[l]? = some b → f.Shows b (c.block l)) :
    f.succsOf = c.succs := by
  funext l
  rw [succsOf, Chart.succs]
  cases hb : f.blocks[l]? with
  | none =>
    have hl : c.size ≤ l := hsize ▸ Array.getElem?_eq_none_iff.1 hb
    rw [hc.beyond l hl]
    rfl
  | some b =>
    have hs := hblock l b hb
    rw [Option.map_some, Option.getD_some, targets]
    cases ht : b.term with
    | none => rw [hs.term_eq_none_iff.1 ht]
    | some t =>
      obtain ⟨e, entry, he, hentry, hexpr⟩ := hs.exit_of_term ht
      simp only [he, entryOf?, fetch?_natCast, hentry, Option.map_some, Option.getD_some, hexpr]
      cases e <;> rfl

/-- A function that describes a chart draws it once it is pruned. -/
theorem Models.prune (h : f.Models c) (hc : c.Consistent) : ∃ f', f.prune = .ok f' ∧ f'.Draws c := by
  have hsuccs := succsOf_eq hc h.size h.block
  obtain ⟨f', hp, hsame, hget⟩ := prune_eq (h.size ▸ hc.pos)
  refine ⟨f', hp, ?_⟩
  have hblocks : f'.blocks = f.blocks := by rw [hsame]
  have hreach : ∀ l : Label, f'.reachable l = true ↔ Graph.Reaches c.succs l := by
    intro l
    rw [← Graph.explore_saw_iff hc.pos hc.inRange l, reachable, fetch?_natCast, Graph.Visit.Saw, hsame]
    simp only [h.size, hsuccs]
    cases (Graph.explore c.size c.succs).seen[l]? <;> simp
  have hids : ∀ id, id ∈ f'.phisOf (fun l => f'.reachable l) ↔
      ∃ l, c.home id = some ⟨l, none⟩ ∧ Graph.Reaches c.succs l := by
    intro id
    rw [mem_phisOf, hblocks]
    constructor
    · rintro ⟨l, b, hb, hl, hid⟩
      refine ⟨l, (hc.phi l id).1 ?_, (hreach l).1 hl⟩
      rw [← (h.block l b hb).phis]
      exact List.mem_map_of_mem hid
    · rintro ⟨l, hl, hr⟩
      obtain ⟨b, hb, hs⟩ := h.exists_block (hc.home_block_lt hl)
      refine ⟨l, b, hb, (hreach l).2 hr, ?_⟩
      obtain ⟨n, hn, heq⟩ := List.mem_map.1 (hs.phis ▸ (hc.phi l id).2 hl)
      rwa [← Int.natCast_inj.1 heq]
  generalize f'.phisOf (fun l => f'.reachable l) = ids at hget hids
  have hentry : ∀ y, f'.entryOf? y = (f.entryOf? y).map fun e =>
      if y.toNat ∈ ids then { e with expr := .phi (liveBranches f'.reach e.expr.branches) } else e := by
    intro y
    cases y with
    | negSucc k => rfl
    | ofNat k => exact hget k
  have hty : ∀ y, f'.tyOf y = f.tyOf y := by
    intro y
    rw [tyOf, hentry, tyOf, Option.map_map]
    congr 2
    funext e
    simp only [Function.comp]
    split <;> rfl
  have hext : f.Extends f' := by
    refine ⟨fun id e he hno => ?_, fun y _ => hty y⟩
    rw [hget, he, Option.map_some, if_neg]
    intro hid
    obtain ⟨l, hl, -⟩ := (hids id).1 hid
    obtain ⟨n, hn, e', he', hphi⟩ := phi?_eq_some_iff.1 (h.phi id l hl)
    rw [← Int.natCast_inj.1 hn, he] at he'
    rw [Option.some.inj he', hphi] at hno
    cases hno
  have hshows : ∀ l b, f'.blocks[l]? = some b → f'.Shows b (c.block l) := fun l b hb =>
    hext.shows (h.block l b (hblocks ▸ hb)) (h.lines_fit hc l)
  have hsize : f'.blocks.size = c.size := hblocks ▸ h.size
  exact {
    error := by rw [hsame]; exact h.error
    sig := by rw [hsame]; exact h.sig
    args := by rw [hsame]; exact h.args
    size := hsize
    succs := succsOf_eq hc hsize hshows
    pruned := by
      have hentry := (hreach Graph.entry).2 Graph.reaches_entry
      rw [reachable] at hentry
      by_contra he
      rw [Bool.not_eq_false, Array.isEmpty_iff] at he
      rw [he] at hentry
      cases hentry
    reach := hreach
    block := fun l hl => by
      obtain ⟨b, hb, -⟩ := h.exists_block (hc.reaches_lt hl)
      rw [← hblocks] at hb
      exact ⟨b, hb, hshows l b hb⟩
    types := fun x _ => (hty x).trans (h.types x)
    loose := fun x e _ hnone => ((hty e.ref).trans (h.types e.ref)).trans (hc.ty_eq_void hnone)
    home := fun x p hx => by
      obtain ⟨e, he, hb⟩ := h.home x p hx
      rw [hentry, he, Option.map_some]
      exact ⟨_, rfl, by split <;> exact hb⟩
    phi := fun x l hx hl => by
      have hphi := h.phi x l hx
      obtain ⟨n, rfl, e, he, hexpr⟩ := phi?_eq_some_iff.1 hphi
      have hn : n ∈ ids := (hids n).2 ⟨l, hx, hl⟩
      rw [phi?_eq, hentry, entryOf?, fetch?_natCast, he, Option.map_some, Int.toNat_natCast, if_pos hn,
        hexpr, Option.bind_some]
      simp only [Expr.isPhi, Expr.branches, if_true, liveBranches, List.filter_map]
      rfl }

/-! ## Uses -/

theorem Draws.entry_of_home (h : f.Draws c) {x : Ref} {p : Home} (hp : c.home x = some p) :
    ∃ e, f.entryOf? x = some e ∧ e.block = p.block ∧ e.ty = c.ty x := by
  obtain ⟨e, he, hb⟩ := h.home x p hp
  refine ⟨e, he, hb, ?_⟩
  rw [← h.types x (by rw [hp]; exact nofun), tyOf, he]
  rfl

section

variable (hs : f.Shows b cb)
include hs

theorem Shows.getElem? (i : Nat) : b.code[i]?.map f.act? = cb.code[i]?.map some := by
  rw [← List.getElem?_map, ← List.getElem?_map, hs.code]

theorem Shows.length : b.code.length = cb.code.length := by
  simpa using congrArg List.length hs.code

theorem Shows.getElem?_of_out (ha : cb.code[i]? = some a) (hn : a.out? = some (n : Int)) :
    b.code[i]? = some n := by
  have hi := hs.getElem? i
  rw [ha] at hi
  obtain ⟨id, hid, hact⟩ := Option.map_eq_some_iff.1 hi
  obtain ⟨e, -, he⟩ := Option.bind_eq_some_iff.1 hact
  rcases Expr.out_of_act he with hout | hout
  · rw [hn] at hout
    cases hout
  · rw [hn] at hout
    rw [hid, Int.natCast_inj.1 (Option.some.inj hout)]

end

/-- The place that the verifier finds is the home of the value. -/
theorem placeIn_eq (hc : c.Consistent) (hs : f.Shows b (c.block l)) {place : Option Nat}
    (hn : c.home (n : Int) = some ⟨l, place⟩) : placeIn b n = (place.map Int.ofNat).getD (-1) := by
  have hphi : b.phis.contains n = true ↔ place = none := by
    rw [List.contains_iff_mem]
    have hmem : n ∈ b.phis ↔ (n : Int) ∈ (c.block l).phis := by
      rw [← hs.phis, List.mem_map]
      exact ⟨fun h => ⟨n, h, rfl⟩, fun ⟨k, hk, hkn⟩ => Int.natCast_inj.1 hkn ▸ hk⟩
    rw [hmem, hc.phi, hn]
    simp
  rw [placeIn]
  cases place with
  | none => rw [if_pos (hphi.2 rfl)]; rfl
  | some j =>
    rw [if_neg (by rw [hphi]; exact nofun)]
    obtain ⟨a, ha, hout⟩ := hc.placed l j n hn
    have hj := hs.getElem?_of_out ha hout
    obtain ⟨hlt, hget⟩ := List.getElem?_eq_some_iff.1 hj
    have hidx : b.code.idxOf? n = some j := by
      rw [List.idxOf?_eq_some_iff]
      refine ⟨hlt, hget, fun k hk hkn => ?_⟩
      -- An earlier occurrence would be the same line at another place.
      have hact : ∀ {i : Nat}, b.code[i]? = some n → (c.block l).code[i]? = some a := by
        intro i hi
        have h1 := hs.getElem? i
        have h2 := hs.getElem? j
        rw [hi] at h1
        rw [hj, ha] at h2
        obtain ⟨a', ha', heq⟩ := Option.map_eq_some_iff.1 h1.symm
        have : some a' = some a := heq.trans (Option.some.inj h2)
        rw [ha', Option.some.inj this]
      have := hc.home_unique (hact (List.getElem?_eq_some_iff.2 ⟨hk.trans hlt, hkn⟩)) hout ha hout
      omega
    rw [hidx]
    rfl

section

variable (h : f.Draws c) (hc : c.Consistent) (hg : gr.Describes c.size c.succs)
include h hc hg

theorem Draws.verifyOperand_iff (hl : Graph.Reaches c.succs l) (hs : f.Shows b (c.block l)) {place : Nat}
    {y : Ref} (hy : c.ty y ≠ .void) :
    f.verifyOperand gr l b place id x y = .ok () ↔ c.Available l place y := by
  obtain ⟨⟨k, place'⟩, hp⟩ := Option.ne_none_iff_exists'.1 (hc.typed y hy)
  obtain ⟨n, rfl⟩ := Int.eq_ofNat_of_zero_le (hc.nonneg y (hc.typed y hy))
  obtain ⟨e, he, rfl, hty⟩ := h.entry_of_home hp
  have hvoid : e.ty.isVoid = false := Bool.eq_false_iff.2 (by rwa [ne_eq, Ty.isVoid_iff, hty])
  have hplace : e.block = l → (placeIn b n < place ↔ ∀ j, place' = some j → j < place) := by
    rintro rfl
    rw [placeIn_eq hc hs hp]
    cases place' with
    | none => exact iff_of_true (by simp only [Option.map_none, Option.getD_none]; omega) nofun
    | some j => simp
  rw [verifyOperand_ok_iff]
  simp only [usable_ok_iff, he, Option.some.injEq, and_assoc, exists_eq_left', hvoid, true_and, h.reach,
    Chart.Available, hp, Int.toNat_natCast, hg.dominates _ _ hl]
  exact and_congr_right fun _ => or_congr_left (and_congr_right hplace)

theorem Draws.verifyBranch_iff (hid : c.home id = some ⟨l, none⟩) {e : EdgeValue} (he : e ∈ c.incoming id)
    (hr : Graph.Reaches c.succs e.source.toNat) : f.verifyBranch gr l id (branchOf e) = .ok () ↔
      c.ty e.ref = c.ty id ∧ c.Available e.source.toNat (c.length e.source.toNat) e.ref := by
  have hty : f.tyOf id = c.ty id := h.types _ (by rw [hid]; exact nofun)
  have hvoid : c.ty id ≠ .void := Ty.ne_void_of_kind (hc.scalar l id hid)
  rw [verifyBranch_ok_iff]
  simp only [usable_ok_iff, branchOf, and_assoc, hty, hg.dominates _ _ hr]
  cases hp : c.home e.ref with
  | none =>
    refine iff_of_false ?_ fun hav => hav.2.home_ne_none hp
    rintro ⟨entry, hentry, -, hsome, -⟩
    have hloose := h.loose id e he hp
    rw [tyOf, hentry] at hloose
    rw [show entry.ty = .void from hloose] at hsome
    cases hsome
  | some p =>
    obtain ⟨entry, hentry, hblock, hety⟩ := h.entry_of_home hp
    simp only [hentry, Option.some.injEq, exists_eq_left', hblock, hety, h.reach, Chart.available_end_iff hc, hp]
    have hsome : c.ty e.ref = c.ty id → (c.ty e.ref).isVoid = false := fun heq =>
      Bool.eq_false_iff.2 (by rwa [ne_eq, Ty.isVoid_iff, heq])
    tauto

end

/-! ## Blocks -/

theorem Draws.reachable_source (h : f.Draws c) (hg : gr.Describes c.size c.succs) {b : BlockId}
    (hb : 0 ≤ b) : f.reachable b = gr.reachable b.toNat := by
  obtain ⟨n, rfl⟩ := Int.eq_ofNat_of_zero_le hb
  rw [Bool.eq_iff_iff, h.reach, Int.toNat_natCast, hg.reachable]

theorem Draws.verifyPhi_iff (h : f.Draws c) (hc : c.Consistent) (hg : gr.Describes c.size c.succs)
    (hl : Graph.Reaches c.succs l) (hid : c.home id = some ⟨l, none⟩) :
    f.verifyPhi gr l id = .ok () ↔ c.Joins l id := by
  obtain ⟨live, hlive⟩ :
      ∃ live, live = (c.incoming id).filter fun e => gr.reachable e.source.toNat := ⟨_, rfl⟩
  have hbs : f.branches id = live.map branchOf := by
    rw [branches, h.phi id l hid hl, Option.getD_some, hlive]
    refine congrArg _ (List.filter_congr fun e he => ?_)
    exact h.reachable_source hg (hc.source id e he).1
  rw [verifyPhi_ok_iff, hbs, List.forall_mem_map, ← and_assoc]
  simp only [List.length_map, List.countP_map]
  exact Chart.joins_iff hc hg hl id hlive fun e he hr => h.verifyBranch_iff hc hg hid he hr

theorem verifyEnd_of_act {ty : Ref → Ty} {id : Ref} {t : Ty} (h : x.act ty id t = some a) (l : Label)
    (n : Nat) : f.verifyEnd l n x = .ok () := by
  cases x <;> first | rfl | cases h

theorem Draws.verifyExpr_iff (h : f.Draws c) (hc : c.Consistent) (hg : gr.Describes c.size c.succs)
    (hl : Graph.Reaches c.succs l) (hs : f.Shows b (c.block l)) (hid : b.code[i]? = some id) :
    ∃ a, (c.block l).code[i]? = some a ∧
      (f.verifyExpr gr l b i id = .ok () ↔ ∀ x ∈ a.reads, c.Available l i x) := by
  have hi := hs.getElem? i
  rw [hid] at hi
  obtain ⟨a, ha, hact⟩ := Option.map_eq_some_iff.1 hi.symm
  obtain ⟨e, he, hexpr⟩ := Option.bind_eq_some_iff.1 hact.symm
  refine ⟨a, ha, ?_⟩
  rw [verifyExpr_ok_iff he, verifyEnd_of_act hexpr, and_iff_left rfl, Expr.reads_of_act hexpr]
  refine forall_congr' fun x => forall_congr' fun hx => h.verifyOperand_iff hc hg hl hs ?_
  exact (hc.lines l a (List.mem_of_getElem? ha)).reads x (Expr.reads_of_act hexpr ▸ hx)

theorem operands_exit (e : Gen.Exit) : e.expr.operands = e.reads := by
  cases e with
  | jump t => rfl
  | branch x yes no => rfl
  | ret x => cases x <;> rfl

theorem Draws.verifyEnd_exit (h : f.Draws c) (hc : c.Consistent) (he : e.Fits c.sig.result c.size c.ty)
    (l : Label) (id : Nat) : f.verifyEnd l id e.expr = .ok () := by
  have hty : ∀ x, c.ty x ≠ .void → f.tyOf x = c.ty x := fun x hx => h.types x (hc.typed x hx)
  cases e with
  | jump t => rfl
  | branch x yes no =>
    have hx := hty x (by rw [he.1]; exact nofun)
    simp [Gen.Exit.expr, verifyEnd, hx, he.1]
  | ret x =>
    cases x with
    | none =>
      have hr : c.sig.result = .void := he
      simp [Gen.Exit.expr, verifyEnd, h.sig, hr]
    | some x =>
      have hx := hty x (by rw [he.2]; exact he.1)
      simp [Gen.Exit.expr, verifyEnd, h.sig, he.1, hx, he.2]

theorem Draws.verifyExit_iff (h : f.Draws c) (hc : c.Consistent) (hg : gr.Describes c.size c.succs)
    (hl : Graph.Reaches c.succs l) (hs : f.Shows b (c.block l)) {t : Nat} (ht : b.term = some t)
    (he : (c.block l).exit = some e) :
    f.verifyExpr gr l b b.code.length t = .ok () ↔ ∀ x ∈ e.reads, c.Available l (c.length l) x := by
  have hexit := hs.exit
  rw [ht, he] at hexit
  obtain ⟨entry, hentry, hexpr⟩ := Option.map_eq_some_iff.1 (Option.some.inj hexit)
  have hfits := hc.exits l e he
  have hlen : b.code.length = c.length l := hs.length
  rw [verifyExpr_ok_iff hentry, hexpr, h.verifyEnd_exit hc hfits, and_iff_left rfl, operands_exit, hlen]
  exact forall_congr' fun x => forall_congr' fun hx => h.verifyOperand_iff hc hg hl hs (hfits.reads hx)

theorem Shows.forall_phis (hs : f.Shows b cb) {P : Ref → Prop} :
    (∀ n ∈ b.phis, P ((n : Nat) : Int)) ↔ ∀ x ∈ cb.phis, P x := by
  rw [← hs.phis, List.forall_mem_map]

section

variable (h : f.Draws c) (hc : c.Consistent)
include h hc

/-- A block passes its check exactly if it ends and the chart is well formed there. -/
theorem Draws.verifyBlock_iff (hg : gr.Describes c.size c.succs) (hl : Graph.Reaches c.succs l) :
    f.verifyBlock gr l = .ok (.ok ()) ↔ (∀ x ∈ (c.block l).phis, c.Joins l x) ∧
      (∀ i a, (c.block l).code[i]? = some a → ∀ x ∈ a.reads, c.Available l i x) ∧
      ∃ e, (c.block l).exit = some e ∧ ∀ x ∈ e.reads, c.Available l (c.length l) x := by
  obtain ⟨b, hb, hs⟩ := h.block l hl
  rw [verifyBlock_ok_iff hb]
  refine and_congr ?_ (and_congr ?_ ?_)
  · rw [← hs.forall_phis]
    refine forall_congr' fun n => forall_congr' fun hn => h.verifyPhi_iff hc hg hl ?_
    exact (hc.phi l n).1 (hs.phis ▸ List.mem_map_of_mem hn)
  · constructor
    · intro hall i a ha
      have hi := hs.getElem? i
      rw [ha] at hi
      obtain ⟨id, hid, -⟩ := Option.map_eq_some_iff.1 hi
      obtain ⟨a', ha', hiff⟩ := h.verifyExpr_iff hc hg hl hs hid
      cases ha.symm.trans ha'
      exact hiff.1 (hall i id hid)
    · intro hall i id hid
      obtain ⟨a, ha, hiff⟩ := h.verifyExpr_iff hc hg hl hs hid
      exact hiff.2 (hall i a ha)
  · constructor
    · rintro ⟨t, ht, hv⟩
      obtain ⟨e, he⟩ := Option.ne_none_iff_exists'.1 (mt hs.term_eq_none_iff.2 (by rw [ht]; exact nofun))
      exact ⟨e, he, (h.verifyExit_iff hc hg hl hs ht he).1 hv⟩
    · rintro ⟨e, he, hav⟩
      obtain ⟨t, ht⟩ := Option.ne_none_iff_exists'.1 (mt hs.term_eq_none_iff.1 (by rw [he]; exact nofun))
      exact ⟨t, ht, (h.verifyExit_iff hc hg hl hs ht he).2 hav⟩

/-! ## The function -/

theorem Draws.verifyEdges_iff (hl : Graph.Reaches c.succs l) (hb : f.blocks[l]? = some b) :
    f.verifyEdges l b = .ok () ↔ (c.block l).exit ≠ none := by
  obtain ⟨b', hb', hs⟩ := h.block l hl
  cases hb.symm.trans hb'
  rw [verifyEdges_ok_iff, ← Option.ne_none_iff_exists', ne_eq, hs.term_eq_none_iff]
  refine and_iff_left fun s hmem => ?_
  have htargets : f.targets b = c.succs l := by
    rw [← h.succs, succsOf, hb]
    rfl
  rw [h.size]
  exact hc.inRange l hl s (htargets ▸ hmem)

theorem Draws.edges_iff : f.EdgesPass ↔ ∀ l, Graph.Reaches c.succs l → (c.block l).exit ≠ none := by
  constructor
  · intro hall l hl
    obtain ⟨b, hb, -⟩ := h.block l hl
    exact (h.verifyEdges_iff hc hl hb).1 (hall l b hb ((h.reach l).2 hl))
  · intro hall l b hb hl
    have hl := (h.reach l).1 hl
    exact (h.verifyEdges_iff hc hl hb).2 (hall l hl)

/-- The verifier accepts what draws a chart exactly if it is well formed, with the graph of the chart. -/
theorem Draws.verifyPruned_iff :
    f.verifyPruned = .ok (.ok gr) ↔ Graph.build c.size c.succs = .ok gr ∧ c.WellFormed := by
  rw [verifyPruned_ok_iff, h.edges_iff hc, h.size, h.succs, and_left_comm]
  refine and_congr_right fun hb => ?_
  obtain ⟨gr', hb', hg⟩ := hc.build_ok
  cases hb.symm.trans hb'
  constructor
  · rintro ⟨hended, hall⟩
    have hblock := fun l hl => (h.verifyBlock_iff hc hg hl).1 (hall l ((hg.order.mem l).2 hl))
    refine ⟨hended, fun l hl => (hblock l hl).1, fun l hl => (hblock l hl).2.1, fun l hl e he => ?_⟩
    obtain ⟨e', he', hav⟩ := (hblock l hl).2.2
    cases he.symm.trans he'
    exact hav
  · intro hw
    refine ⟨hw.ended, fun l hl => ?_⟩
    have hl := (hg.order.mem l).1 hl
    obtain ⟨e, he⟩ := Option.ne_none_iff_exists'.1 (hw.ended l hl)
    exact (h.verifyBlock_iff hc hg hl).2 ⟨hw.joins l hl, hw.lines l hl, e, he, hw.exits l hl e he⟩

theorem Draws.verify_ok (hw : c.WellFormed) :
    ∃ gr, gr.Describes c.size c.succs ∧ f.verify = .ok (f, .ok gr) := by
  obtain ⟨gr, hb, hg⟩ := hc.build_ok
  refine ⟨gr, hg, ?_⟩
  rw [verify_checked (h.size ▸ hc.pos) h.error h.pruned, (h.verifyPruned_iff hc).2 ⟨hb, hw⟩]
  rfl

theorem Draws.verify_refused (hw : ¬ c.WellFormed) : ∃ e, f.verify = .ok (f, .error e) := by
  obtain ⟨r, hr⟩ := verifyPruned_returns (f := f) fun _ => by
    obtain ⟨gr, hb, hg⟩ := hc.build_ok
    exact ⟨gr, by rw [h.size, h.succs, hb], fun l hl => (h.reach l).2 ((hg.order.mem l).1 hl)⟩
  rw [verify_checked (h.size ▸ hc.pos) h.error h.pruned, hr]
  cases r with
  | error e => exact ⟨e, rfl⟩
  | ok gr => exact absurd ((h.verifyPruned_iff hc).1 hr).2 hw

end

end Codesmith.Ssa.Func
