import Codesmith.Proofs.Ssa.Removal

/-!
# A function that passed its check passes it again without its trivial phis

Each part of the check is carried over. What takes the place of a definition has its type and stands in
a block that dominates the block of the definition, and strictly if something was replaced. So a use that
came after its definition in a block now finds a definition in another block above it, or the same one.

The entry is the exception. Control comes there first without an edge, so what a phi of the entry merges
need not dominate the entry. The check does not know this edge, and a phi of the entry that merges a
single value is removed like any other.
-/

namespace Codesmith.Ssa.Func

variable {f f' : Func} {g : Graph} {s : Replaced}
variable {e : Entry} {l : Label} {b : Block} {place id : Nat}

/-! ## Without the replaced phis -/

section Dropped

variable (hd : f.Drops s f') (hm : Graph.Merges f.succsOf f.home f.tyOf s.apply)
variable {x : Expr} {l : Label} {id : Nat}
include hd

/-- The edges of the blocks stay, and so does their check. -/
theorem Drops.edgesPass (h : f.EdgesPass) : f'.EdgesPass := by
  intro l b' hb' hl
  rw [hd.blocks, dropPhis_getElem?] at hb'
  obtain ⟨b, hb, hbeq⟩ := Option.map_eq_some_iff.1 hb'
  have hterm : b'.term = b.term := by
    rw [← hbeq]
    split <;> rfl
  have htargets : f'.targets b' = f.targets b := by
    rw [hd.targets, Func.targets, Func.targets, hterm]
  rw [verifyEdges_ok_iff, hterm, htargets, hd.size]
  exact verifyEdges_ok_iff.1 (h l b hb (hd.reachable _ ▸ hl))

include hm

/-- What takes the place of a usable definition is usable. It has the same type and stands in a block
that dominates that of the definition, and in another one if something was replaced. -/
theorem Drops.usable (hreach : ∀ l : Label, f.reachable l = true ↔ Graph.Reaches f.succsOf l) {x : Ref}
    {e : Entry} (h : f.usable x = .ok e) : ∃ e', f'.usable (s.apply x) = .ok e' ∧ e'.ty = e.ty ∧
      Graph.Dom f.succsOf e'.block e.block ∧ (e'.block = e.block → s.apply x = x) := by
  obtain ⟨he, hr, hvoid⟩ := usable_ok_iff.1 h
  have hhome : f.home x = some e.block := (home_of_usable h).1
  obtain ⟨q, hq, hdom, hsame⟩ : ∃ q, f.home (s.apply x) = some q ∧ Graph.Dom f.succsOf q e.block ∧
      (q = e.block → s.apply x = x) := by
    by_cases hx : s.apply x = x
    · exact ⟨e.block, by rw [hx, hhome], .refl _, fun _ => hx⟩
    · obtain ⟨l, q, hl, hq, -, hdom, hne⟩ := hm.dom hx
      cases hl.symm.trans hhome
      exact ⟨q, hq, hdom, fun heq => absurd heq hne⟩
  rw [← hd.home, Func.home] at hq
  obtain ⟨e', he', rfl⟩ := Option.map_eq_some_iff.1 hq
  have hty : e'.ty = e.ty := by
    have := hm.ty_eq x
    rw [← hd.tyOf, Func.tyOf, Func.tyOf, he', he] at this
    exact this
  refine ⟨e', usable_ok_iff.2 ⟨he', ?_, hty ▸ hvoid⟩, hty, hdom, hsame⟩
  rw [hd.reachable, hreach]
  exact hdom.reaches ((hreach _).1 hr)

/-- How a block ends still fits: the types are the same. -/
theorem Drops.verifyEnd (h : f.verifyEnd l id x = .ok ()) :
    f'.verifyEnd l id (x.mapOperands s.apply) = .ok () := by
  have hty : ∀ y, f'.tyOf (s.apply y) = f.tyOf y := fun y => by rw [hd.tyOf, hm.ty_eq]
  have hsig : f'.sig = f.sig := by rw [hd.same]
  cases x with
  | ret y =>
    cases y with
    | none =>
      simp only [Expr.mapOperands, Func.verifyEnd, hsig] at h ⊢
      split_ifs at h ⊢
      rfl
    | some y =>
      simp only [Expr.mapOperands, Func.verifyEnd, hsig, hty] at h ⊢
      split_ifs at h ⊢
      rfl
  | branch c yes no =>
    simp only [Expr.mapOperands, Func.verifyEnd, hty] at h ⊢
    split_ifs at h ⊢
    rfl
  | _ => rfl

variable (h : f.Accepted g) (hends : s.Ends)
include h hends

/-- An operand that was defined earlier in its block, or above it, still is. -/
theorem Drops.verifyOperand (hl : Graph.Reaches f.succsOf l) {b : Block} {place : Nat} {x' : Expr} {y : Ref}
    (hop : f.verifyOperand g l b place id x y = .ok ()) :
    f'.verifyOperand g l { b with phis := b.phis.filter fun id => !s.contains id } place id x'
      (s.apply y) = .ok () := by
  obtain ⟨e, he, hplace⟩ := verifyOperand_ok_iff.1 hop
  obtain ⟨e', he', -, hdom, hsame⟩ := hd.usable hm h.reach he
  refine verifyOperand_ok_iff.2 ⟨e', he', ?_⟩
  rcases hplace with ⟨rfl, hplace⟩ | ⟨hne, hdom'⟩
  · by_cases hblock : e'.block = e.block
    · -- The same definition stands at the same place: if it is a phi, it was kept.
      refine .inl ⟨hblock, ?_⟩
      have hy := hsame hblock
      rw [hy]
      suffices hphis : y.toNat ∈ b.phis.filter (fun id => !s.contains id) ↔ y.toNat ∈ b.phis by
        simpa only [placeIn, List.contains_iff_mem, hphis] using hplace
      refine ⟨List.mem_of_mem_filter, fun hmem => List.mem_filter.2 ⟨hmem, ?_⟩⟩
      have hnat : ((y.toNat : Nat) : Int) = y := Int.toNat_of_nonneg (lt_of_home (home_of_usable he).1).1
      rw [Replaced.contains, hnat, hends.apply_eq_self_iff.1 hy]
      rfl
    · exact .inr ⟨hblock, (h.graph.dominates _ _ hl).2 hdom⟩
  · have hdom' := (h.graph.dominates _ _ hl).1 hdom'
    refine .inr ⟨fun heq => hne ?_, (h.graph.dominates _ _ hl).2 (hdom.trans hdom')⟩
    exact hdom'.antisymm (heq ▸ hdom) hl

/-- A block that passed its check passes it again. -/
theorem Drops.verifyBlock (hl : Graph.Reaches f.succsOf l) (hv : f.verifyBlock g l = .ok (.ok ())) :
    f'.verifyBlock g l = .ok (.ok ()) := by
  obtain ⟨b, hb⟩ := h.exists_block hl
  have hb' := hd.getElem?_blocks h hl hb
  obtain ⟨hphis, hcode, t, ht, hterm⟩ := (verifyBlock_ok_iff hb).1 hv
  have hexpr : ∀ {place id : Nat}, id ∈ b.code ∨ b.term = some id →
      f.verifyExpr g l b place id = .ok () →
        f'.verifyExpr g l { b with phis := b.phis.filter fun id => !s.contains id } place id = .ok () := by
    intro place id hid hold
    have hget := hd.getElem?_entries h hl hb' (.inr hid)
    cases he : f.entries[id]? with
    | none =>
      rw [Func.verifyExpr, hget, he]
      rfl
    | some e =>
      rw [he, Option.map_some] at hget
      obtain ⟨hops, hend⟩ := (verifyExpr_ok_iff he).1 hold
      refine (verifyExpr_ok_iff hget).2 ⟨fun y hy => ?_, hd.verifyEnd hm hend⟩
      rw [operands_mapOperands] at hy
      obtain ⟨z, hz, rfl⟩ := List.mem_map.1 hy
      exact hd.verifyOperand hm h hends hl (hops z hz)
  refine (verifyBlock_ok_iff hb').2 ⟨fun id hid => ?_, fun i id hi => ?_, t, ht, hexpr (.inr ht) hterm⟩
  · obtain ⟨hlen, hcount, hall⟩ := verifyPhi_ok_iff.1 (hphis id (List.mem_of_mem_filter hid))
    have hbranches := hd.branches h hl hb' hid
    refine verifyPhi_ok_iff.2 ⟨?_, fun p hp => ?_, fun br hbr => ?_⟩
    · rw [hbranches, List.length_map, hlen]
    · rw [hbranches, List.countP_map]
      exact hcount p hp
    · rw [hbranches] at hbr
      obtain ⟨br', hbr', rfl⟩ := List.mem_map.1 hbr
      obtain ⟨e, he, hty, hdom⟩ := verifyBranch_ok_iff.1 (hall br' hbr')
      obtain ⟨e', he', hty', hdom', -⟩ := hd.usable hm h.reach he
      obtain ⟨p, hp, hr, -⟩ := h.branch l b id br' hb hl (List.mem_of_mem_filter hid) hbr'
      refine verifyBranch_ok_iff.2 ⟨e', he', by rw [hty', hty, hd.tyOf], ?_⟩
      simp only [hp, Int.toNat_natCast] at hdom ⊢
      rw [h.graph.dominates _ _ hr] at hdom ⊢
      exact hdom'.trans hdom
  · exact hexpr (.inl (List.mem_of_getElem? hi)) (hcode i id hi)

/-- A function that passed its check passes it again, with the same graph. -/
theorem Drops.verifyPruned (hv : f.verifyPruned = .ok (.ok g)) : f'.verifyPruned = .ok (.ok g) := by
  obtain ⟨hedges, hbuild, hblocks⟩ := verifyPruned_ok_iff.1 hv
  refine verifyPruned_ok_iff.2 ⟨hd.edgesPass hedges, ?_, fun l hl => ?_⟩
  · rw [hd.size, hd.succsOf, hbuild]
  · exact hd.verifyBlock hm h hends ((h.graph.order.mem l).1 hl) (hblocks l hl)

end Dropped

/-- A function that was pruned and passed its check passes it again without its trivial phis, with the
same graph, if none of them stands in the entry. The second check of a compilation never fails then. -/
theorem simplified_passes_check {f f₁ f₂ : Func} {g : Graph} (hf : f.Made) (hp : f.prune = .ok f₁)
    (hv : f₁.verify = .ok (f₂, .ok g))
    (hentry : ∀ b, f₁.blocks[Graph.entry]? = some b → ∀ id ∈ b.phis, f₁.trivialPhis.contains id = false) :
    f₁.removeTrivialPhis.2.verify = .ok (f₁.removeTrivialPhis.2, .ok g) ∧
      f.compile = .ok (f₁.removeTrivialPhis.2, f₁.removeTrivialPhis.2.emit g) := by
  have h : f₁.Accepted g := accepted_of_verify hf.tabled hp hv
  have ht : f₁.Tabled := h.tabled
  obtain ⟨hsame, herror, hreach, -, hpruned⟩ := parts_of_verify hf.tabled hp hv
  rw [hsame] at hv
  have hagain : f₁.removeTrivialPhis.2.verify = .ok (f₁.removeTrivialPhis.2, .ok g) := by
    by_cases hzero : f₁.trivialPhis.count = 0
    · rw [removeTrivialPhis, if_pos hzero]
      exact hv
    have hσ := h.substitutes hentry
    have hd : f₁.Drops f₁.trivialPhis f₁.removeTrivialPhis.2 := by
      rw [removeTrivialPhis, if_neg hzero]
      exact drops_removed hσ.merges.idem f₁
    have hpos : 0 < f₁.removeTrivialPhis.2.blocks.size := hd.size ▸ ht.pos
    rw [verify_checked hpos (by rw [hd.same]; exact herror) (by rw [hd.same]; exact hreach),
      hd.verifyPruned hσ.merges h h.merged.1 hpruned]
    rfl
  refine ⟨hagain, ?_⟩
  simp only [compile, hp, hv, hagain, bind, Except.bind, pure, Except.pure]

/-- Two loops around the entry. The phi of the entry merges two values and stays; the phi of the first
loop merges only that of the entry. -/
def entryLoops : Func :=
  let f := create "loops" ⟨[.bool], .void⟩
  let f := (f.newBlock "left").2
  let f := (f.newBlock "right").2
  let f := (f.add 0 (.phi [⟨1, 4⟩, ⟨2, 6⟩]) .i64 none).2
  let f := (f.add 0 (.branch 0 1 2) .void none).2
  let f := (f.add 1 (.phi [⟨0, 1⟩]) .i64 none).2
  let f := (f.add 1 (.binary .add 3 3) .i64 none).2
  let f := (f.add 1 (.jump 0) .void none).2
  let f := (f.add 2 (.imm 2) .i64 none).2
  (f.add 2 (.jump 0) .void none).2

theorem made_entryLoops : entryLoops.Made :=
  .add _ _ _ _ <| .add _ _ _ _ <| .add _ _ _ _ <| .add _ _ _ _ <| .add _ _ _ _ <| .add _ _ _ _ <|
    .add _ _ _ _ <| .newBlock _ <| .newBlock _ <| .create _ _

theorem simplified_passes_check_entryLoops : ∃ f₁ f₂ g, entryLoops.Made ∧ entryLoops.prune = .ok f₁ ∧
    f₁.verify = .ok (f₂, .ok g) ∧ f₁.removeTrivialPhis.1 = 1 ∧
    f₁.removeTrivialPhis.2.verify = .ok (f₁.removeTrivialPhis.2, .ok g) ∧
    entryLoops.compile = .ok (f₁.removeTrivialPhis.2, f₁.removeTrivialPhis.2.emit g) := by
  obtain ⟨f₁, f₂, g, hp, hv, hone, hentry⟩ : ∃ f₁ f₂ g, entryLoops.prune = .ok f₁ ∧
      f₁.verify = .ok (f₂, .ok g) ∧ f₁.removeTrivialPhis.1 = 1 ∧
      ∀ b, f₁.blocks[Graph.entry]? = some b → ∀ id ∈ b.phis, f₁.trivialPhis.contains id = false := by
    refine ⟨_, _, _, rfl, rfl, by cbv, fun b hb id hid => ?_⟩
    cases hb
    obtain rfl : id = 1 := List.mem_singleton.1 hid
    cbv
  exact ⟨f₁, f₂, g, made_entryLoops, hp, hv, hone, simplified_passes_check made_entryLoops hp hv hentry⟩

/-- A loop around the entry. Its phi merges only a value of the other block, which is not there yet when
control comes to the entry first. -/
def lateValue : Func :=
  let f := create "f" ⟨[], .void⟩
  let f := (f.newBlock "next").2
  let f := (f.add 0 (.phi [⟨1, 3⟩]) .i64 none).2
  let f := (f.add 0 (.binary .add 0 0) .i64 none).2
  let f := (f.add 0 (.jump 1) .void none).2
  let f := (f.add 1 (.imm 7) .i64 none).2
  (f.add 1 (.jump 0) .void none).2

/-- A function that passed its check may fail it without its trivial phis, and is refused for that. -/
theorem simplified_fails_check : lateValue.Made ∧ ∃ f₁ f₂ g e, lateValue.prune = .ok f₁ ∧
    f₁.verify = .ok (f₂, .ok g) ∧
    f₁.removeTrivialPhis.2.verify = .ok (f₁.removeTrivialPhis.2, .error e) ∧
    lateValue.compile = .ok (f₁.removeTrivialPhis.2, .error (.verify e)) ∧
    e.message = "ir: f: block entry: ir.Binary uses 3 not dominated by its definition in next" := by
  refine ⟨.add _ _ _ _ <| .add _ _ _ _ <| .add _ _ _ _ <| .add _ _ _ _ <| .add _ _ _ _ <| .newBlock _ <|
    .create _ _, _, _, _, lateValue.refuse 0 1 (.useOutside "ir.Binary" 3 "next"), rfl, rfl, ?_, ?_, rfl⟩
  · cbv
  · cbv

end Codesmith.Ssa.Func
