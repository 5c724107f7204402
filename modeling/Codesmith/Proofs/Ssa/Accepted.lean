import Codesmith.Proofs.Ssa.Built

/-!
# What the check of a function establishes

A function that was pruned and passed its check is in order (`Func.Accepted`): its reachable blocks are
known, end and lead to blocks; every operand was met on every way to where it is read; and a phi has one
branch from each predecessor of its block, with a value that was met on every way to that predecessor.
-/

namespace Codesmith.Ssa.Func

variable {f f' : Func} {g : Graph} {L : Int → Bool}
variable {l : Label} {b : Block} {id : Nat} {f1 f2 : Func}

theorem size_eq_of_isSome {α : Type} {xs ys : Array α} (h : ∀ i : Nat, ys[i]?.isSome = xs[i]?.isSome) :
    ys.size = xs.size := by
  have hlt : ∀ i, i < ys.size ↔ i < xs.size := fun i => by
    simpa using congrArg (· = true) (h i)
  exact Nat.le_antisymm (Nat.le_of_not_lt fun hl => Nat.lt_irrefl _ ((hlt _).1 hl))
    (Nat.le_of_not_lt fun hl => Nat.lt_irrefl _ ((hlt _).2 hl))

/-! ## The reachable blocks -/

/-- Whether a block is reachable now, whatever was noted before. -/
def live (f : Func) (b : Int) : Bool :=
  (fetch? (Graph.explore f.blocks.size f.succsOf).seen b).getD false

theorem live_iff : f.live l = true ↔ (Graph.explore f.blocks.size f.succsOf).Saw l := by
  rw [live, fetch?_natCast, Graph.Visit.Saw]
  cases (Graph.explore f.blocks.size f.succsOf).seen[l]? <;> simp

/-- The checks of edges establish that all reached blocks end and lead to blocks. -/
theorem edges_of_checks (hpos : 0 < f.blocks.size) (hlive : ∀ l, f.reachable l = f.live l)
    (hedges : f.EdgesPass) : Graph.InRange f.blocks.size f.succsOf := by
  refine Graph.inRange_of_saw hpos fun l hl s hs => ?_
  rw [succsOf] at hs
  cases hb : f.blocks[l]? with
  | none => rw [hb] at hs; cases hs
  | some b =>
    rw [hb, Option.map_some, Option.getD_some] at hs
    exact (verifyEdges_ok_iff.1 (hedges l b hb ((hlive l).trans (live_iff.2 hl)))).2 s hs

theorem succsOf_congr (hblocks : f'.blocks = f.blocks)
    (h : ∀ i : Nat, (f'.entries[i]?.map fun e => e.expr.targets) = f.entries[i]?.map fun e => e.expr.targets) :
    f'.succsOf = f.succsOf := by
  funext l
  rw [Func.succsOf, Func.succsOf, hblocks]
  congr 2
  funext blk
  rw [targets, targets]
  cases blk.term with
  | none => rfl
  | some t =>
    simp only [entryOf?, fetch?_natCast]
    rw [h t]

theorem succsOf_prune (ht : f.Tabled) (hp : f.prune = .ok f') : f'.succsOf = f.succsOf := by
  obtain ⟨f1, hp', hsame, hget⟩ := prune_eq ht.pos
  obtain rfl : f1 = f' := Except.ok.inj (hp'.symm.trans hp)
  have hblocks : f1.blocks = f.blocks := by rw [hsame]
  refine succsOf_congr hblocks fun i => ?_
  rw [hget]
  cases he : f.entries[i]? with
  | none => rfl
  | some e =>
    simp only [Option.map_some]
    split
    · -- What was pruned is a phi, before and after.
      rename_i hid
      obtain ⟨l, b, hb, -, hmem⟩ := mem_phisOf.1 hid
      obtain ⟨e', he', -, hphi⟩ := ht.phis l b i (hblocks ▸ hb) hmem
      cases he.symm.trans he'
      cases hx : e.expr with
      | phi bs => rfl
      | _ => rw [hx] at hphi; cases hphi
    · rfl

theorem reachable_prune (hpos : 0 < f.blocks.size) (hp : f.prune = .ok f') (l : Int) :
    f'.reachable l = f.live l := by
  obtain ⟨f1, hp', hsame, -⟩ := prune_eq hpos
  obtain rfl : f1 = f' := Except.ok.inj (hp'.symm.trans hp)
  rw [hsame]
  rfl

/-- A note of the reachable blocks is not empty: the entry is one of them. -/
theorem isEmpty_of_reachable (hpos : 0 < f.blocks.size) (hreach : ∀ l, f.reachable l = f.live l) :
    f.reach.isEmpty = false := by
  by_contra hempty
  rw [Bool.not_eq_false, Array.isEmpty_iff] at hempty
  have hentry : f.live (Graph.entry : Label) = true := live_iff.2 (Graph.explore_closed f.succsOf hpos).1
  rw [← hreach, reachable, hempty] at hentry
  cases hentry

/-- The phis at the heads of blocks in `L` have branches from blocks in `L` only. -/
def Clean (L : Int → Bool) (f : Func) : Prop :=
  ∀ (l : Label) (blk : Block) (id : Nat) (e : Entry), f.blocks[l]? = some blk → L l = true →
    id ∈ blk.phis → f.entries[id]? = some e → ∀ br ∈ e.expr.branches, L br.block = true

theorem clean_of_prune (hpos : 0 < f.blocks.size) (hp : f.prune = .ok f') (hreach : ∀ l, f'.reachable l = L l) :
    f'.Clean L := by
  obtain ⟨f1, hp', hsame, hget⟩ := prune_eq hpos
  obtain rfl : f1 = f' := Except.ok.inj (hp'.symm.trans hp)
  intro l blk id e hblk hl hid he br hbr
  have hmem : id ∈ f1.phisOf fun l => f1.reachable l := mem_phisOf.2 ⟨l, blk, hblk, (hreach l).trans hl, hid⟩
  simp only [hget, if_pos hmem] at he
  obtain ⟨e', -, rfl⟩ := Option.map_eq_some_iff.1 he
  exact (hreach _).symm.trans (List.mem_filter.1 hbr).2

/-! ## Accepted functions -/

/-- The block in which an expression is defined. -/
def home (f : Func) (x : Ref) : Option Label :=
  (f.entryOf? x).map Entry.block

/-- An expression was met on every way to a block. -/
def Met (f : Func) (x : Ref) (l : Label) : Prop :=
  ∃ k, f.home x = some k ∧ Graph.Dom f.succsOf k l

/-- What holds of a function that passed its check, with the graph that was built for it. -/
structure Accepted (f : Func) (g : Graph) : Prop where
  tabled : f.Tabled
  graph : g.Describes f.blocks.size f.succsOf
  range : Graph.InRange f.blocks.size f.succsOf
  reach : ∀ l : Label, f.reachable l = true ↔ Graph.Reaches f.succsOf l
  count : ∀ (l : Label) (b : Block) (id : Nat), f.blocks[l]? = some b → Graph.Reaches f.succsOf l →
    id ∈ b.phis → (f.branches id).length = (g.preds.getD l []).length
  single : ∀ (l : Label) (b : Block) (id : Nat) (p : Label), f.blocks[l]? = some b →
    Graph.Reaches f.succsOf l → id ∈ b.phis → Graph.Reaches f.succsOf p → Graph.Edge f.succsOf p l →
      (f.branches id).countP (fun br => br.block == (p : Int)) = 1
  branch : ∀ (l : Label) (b : Block) (id : Nat) (br : PhiBranch), f.blocks[l]? = some b →
    Graph.Reaches f.succsOf l → id ∈ b.phis → br ∈ f.branches id →
      ∃ p : Label, br.block = p ∧ Graph.Reaches f.succsOf p ∧ f.Met br.value p ∧
        f.tyOf br.value = f.tyOf id
  operand : ∀ (l : Label) (b : Block) (id : Nat) (e : Entry) (x : Ref), f.blocks[l]? = some b →
    Graph.Reaches f.succsOf l → (id ∈ b.code ∨ b.term = some id) → f.entries[id]? = some e →
      x ∈ e.expr.operands → f.Met x l

theorem home_of_usable {x : Ref} {e : Entry} (h : f.usable x = .ok e) :
    f.home x = some e.block ∧ f.tyOf x = e.ty := by
  rw [home, tyOf, (usable_ok_iff.1 h).1]
  exact ⟨rfl, rfl⟩

theorem met_of_verifyOperand (hg : g.Describes f.blocks.size f.succsOf) (hl : Graph.Reaches f.succsOf l)
    {place : Nat} {x : Expr} {y : Ref} (h : f.verifyOperand g l b place id x y = .ok ()) : f.Met y l := by
  obtain ⟨e, he, ⟨rfl, -⟩ | ⟨-, hdom⟩⟩ := verifyOperand_ok_iff.1 h
  · exact ⟨e.block, (home_of_usable he).1, .refl _⟩
  · exact ⟨e.block, (home_of_usable he).1, (hg.dominates _ _ hl).1 hdom⟩

theorem met_of_verifyBranch (hg : g.Describes f.blocks.size f.succsOf) {p : Label} {br : PhiBranch}
    (hp : Graph.Reaches f.succsOf p) (hbr : br.block = p) (h : f.verifyBranch g l id br = .ok ()) :
    f.Met br.value p ∧ f.tyOf br.value = f.tyOf id := by
  obtain ⟨e, he, hty, hdom⟩ := verifyBranch_ok_iff.1 h
  rw [hbr, Int.toNat_natCast] at hdom
  obtain ⟨hhome, hty'⟩ := home_of_usable he
  exact ⟨⟨e.block, hhome, (hg.dominates _ _ hp).1 hdom⟩, hty'.trans hty⟩

/-- A function that passes its check has a graph, and all its blocks were checked. -/
theorem verifyPruned_ok (hpos : 0 < f.blocks.size) (hlive : ∀ l, f.reachable l = f.live l)
    (h : f.verifyPruned = .ok (.ok g)) : Graph.InRange f.blocks.size f.succsOf ∧
      g.Describes f.blocks.size f.succsOf ∧
      ∀ l, Graph.Reaches f.succsOf l → f.verifyBlock g l = .ok (.ok ()) := by
  obtain ⟨hedges, hg, hblocks⟩ := verifyPruned_ok_iff.1 h
  have hrange := edges_of_checks hpos hlive hedges
  obtain ⟨g', hg', hdesc⟩ := Graph.build_ok hpos hrange
  cases hg.symm.trans hg'
  exact ⟨hrange, hdesc, fun l hl => hblocks l ((hdesc.order.mem l).2 hl)⟩

theorem accepted_of_blocks (ht : f.Tabled) (hclean : f.Clean f.reachable)
    (hreach : ∀ l : Label, f.reachable l = true ↔ Graph.Reaches f.succsOf l)
    (hrange : Graph.InRange f.blocks.size f.succsOf) (hg : g.Describes f.blocks.size f.succsOf)
    (h : ∀ l, Graph.Reaches f.succsOf l → f.verifyBlock g l = .ok (.ok ())) : f.Accepted g where
  tabled := ht
  graph := hg
  range := hrange
  reach := hreach
  count l b id hb hl hid := (verifyPhi_ok_iff.1 (((verifyBlock_ok_iff hb).1 (h l hl)).1 id hid)).1
  single l b id p hb hl hid hp he := by
    have hlt : l < f.blocks.size := (Array.getElem?_eq_some_iff.1 hb).1
    exact (verifyPhi_ok_iff.1 (((verifyBlock_ok_iff hb).1 (h l hl)).1 id hid)).2.1 p ((hg.mem_preds hlt p).2 ⟨hp, he⟩)
  branch l b id br hb hl hid hbr := by
    obtain ⟨e, he, -⟩ := ht.phis l b id hb hid
    have hmem : br ∈ e.expr.branches := branches_eq he ▸ hbr
    have hsource := hclean l b id e hb ((hreach l).2 hl) hid he br hmem
    -- Only the number of a block is noted as reachable.
    obtain ⟨p, hp, -⟩ : ∃ p : Nat, br.block = p ∧ f.reach[p]? = some true := by
      refine fetch?_eq_some_iff.1 ?_
      rw [reachable] at hsource
      cases hs : fetch? f.reach br.block with
      | none => rw [hs] at hsource; cases hsource
      | some v =>
        rw [hs] at hsource
        exact congrArg some hsource
    have hp' : Graph.Reaches f.succsOf p := (hreach p).1 (hp ▸ hsource)
    exact ⟨p, hp, hp', met_of_verifyBranch hg hp' hp
      ((verifyPhi_ok_iff.1 (((verifyBlock_ok_iff hb).1 (h l hl)).1 id hid)).2.2 br hbr)⟩
  operand l b id e x hb hl hid he hx := by
    obtain ⟨-, hcode, t, ht, hterm⟩ := (verifyBlock_ok_iff hb).1 (h l hl)
    obtain ⟨place, hplace⟩ : ∃ place, f.verifyExpr g l b place id = .ok () := by
      rcases hid with hid | hid
      · obtain ⟨i, hi⟩ := List.mem_iff_getElem?.1 hid
        exact ⟨i, hcode i id hi⟩
      · cases ht.symm.trans hid
        exact ⟨_, hterm⟩
    exact met_of_verifyOperand hg hl (((verifyExpr_ok_iff he).1 hplace).1 x hx)

/-- A check after pruning leaves the function as it is. If it succeeds, no call had failed, and the
reachable blocks are known. -/
theorem parts_of_verify (ht : f.Tabled) (hp : f.prune = .ok f1) (hv : f1.verify = .ok (f2, .ok g)) :
    f2 = f1 ∧ f1.error = none ∧ f1.reach.isEmpty = false ∧
      (∀ l, f1.reachable l = f1.live l) ∧ f1.verifyPruned = .ok (.ok g) := by
  have ht1 := ht.prune hp
  have hblocks : f1.blocks = f.blocks := by
    obtain ⟨f', hp', hsame, -⟩ := prune_eq ht.pos
    rw [← Except.ok.inj (hp'.symm.trans hp), hsame]
  have hlive : ∀ l, f1.reachable l = f1.live l := fun l => by
    rw [reachable_prune ht.pos hp, live, live, hblocks, succsOf_prune ht hp]
  have hempty := isEmpty_of_reachable ht1.pos hlive
  cases he : f1.error with
  | some e =>
    rw [verify_eq_of_error he] at hv
    cases (Prod.mk.inj (Except.ok.inj hv)).2
  | none =>
    rw [verify_checked ht1.pos he hempty] at hv
    obtain ⟨r, hr, hv⟩ := map_eq_ok.1 hv
    cases hv
    exact ⟨rfl, rfl, hempty, hlive, hr⟩

/-- A function that was pruned and passed its check is in order. -/
theorem accepted_of_verify (ht : f.Tabled) (hp : f.prune = .ok f1) (hv : f1.verify = .ok (f2, .ok g)) :
    f1.Accepted g := by
  have ht1 := ht.prune hp
  obtain ⟨-, -, -, hlive, hr⟩ := parts_of_verify ht hp hv
  obtain ⟨hrange, hg, hall⟩ := verifyPruned_ok ht1.pos hlive hr
  refine accepted_of_blocks ht1 (clean_of_prune ht.pos hp fun _ => rfl) (fun l => ?_) hrange hg hall
  rw [hlive, live_iff, Graph.explore_saw_iff ht1.pos hrange]

end Codesmith.Ssa.Func
