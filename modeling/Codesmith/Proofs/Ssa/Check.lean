import Codesmith.Proofs.Ssa.Model

/-!
# The parts of a check

A function is pruned and then checked, block by block. What is checked of a function, a block and an
expression is told here part by part.
-/

namespace Codesmith.Ssa.Func

variable {f f' : Func} {g : Graph} {l : Label} {b : Block} {e : Entry} {place id : Nat}

/-! ## Pruning -/

theorem mem_phisOf {p : Label → Bool} :
    id ∈ f.phisOf p ↔ ∃ (l : Label) (b : Block), f.blocks[l]? = some b ∧ p l = true ∧ id ∈ b.phis := by
  simp only [phisOf, List.mem_flatMap, Prod.exists, List.mem_zipIdx_iff_getElem?, Array.getElem?_toList]
  constructor
  · rintro ⟨b, l, hb, hid⟩
    split at hid
    · exact ⟨l, b, hb, ‹_›, hid⟩
    · cases hid
  · rintro ⟨l, b, hb, hp, hid⟩
    exact ⟨b, l, hb, by rwa [if_pos hp]⟩

theorem branches_eq (he : f.entries[id]? = some e) : f.branches id = e.expr.branches := by
  rw [branches, phi?_eq, entryOf?, fetch?_natCast, he]
  obtain ⟨x, t, position, l⟩ := e
  cases x <;> rfl

theorem liveBranches_idem (reach : Array Bool) (bs : List PhiBranch) :
    liveBranches reach (liveBranches reach bs) = liveBranches reach bs := by
  simp [liveBranches]

/-- Pruning changes the listed phis and nothing else. -/
theorem foldl_prunePhi (ids : List Nat) (f : Func) :
    ids.foldl prunePhi f = { f with entries := (ids.foldl prunePhi f).entries } ∧
      ∀ i : Nat, (ids.foldl prunePhi f).entries[i]? = f.entries[i]?.map fun e =>
        if i ∈ ids then { e with expr := .phi (liveBranches f.reach e.expr.branches) } else e := by
  induction ids generalizing f with
  | nil => exact ⟨rfl, fun i => by simp⟩
  | cons id ids ih =>
    obtain ⟨hsame, hget⟩ := ih (f.prunePhi id)
    refine ⟨hsame, fun i => (hget i).trans ?_⟩
    simp only [prunePhi, setExpr, Array.getElem?_modify]
    by_cases hi : id = i
    · subst hi
      rw [if_pos rfl]
      cases he : f.entries[id]? with
      | none => rfl
      | some e =>
        rw [branches_eq he]
        by_cases hmem : id ∈ ids <;> simp [hmem, Expr.branches, liveBranches_idem]
    · rw [if_neg hi]
      simp [List.mem_cons, Ne.symm hi]

/-- The function with the reachable blocks noted and phis pruned. -/
theorem prune_eq (hpos : 0 < f.blocks.size) : ∃ f', f.prune = .ok f' ∧
    f' = { f with reach := (Graph.explore f.blocks.size f.succsOf).seen, entries := f'.entries } ∧
    ∀ i : Nat, f'.entries[i]? = f.entries[i]?.map fun e =>
      if i ∈ f'.phisOf (fun l => f'.reachable l) then
        { e with expr := .phi (liveBranches f'.reach e.expr.branches) }
      else e := by
  have hne : f.blocks.isEmpty = false := by
    simpa [Array.isEmpty_iff_size_eq_zero] using Nat.ne_of_gt hpos
  let f1 : Func := { f with reach := (Graph.explore f.blocks.size f.succsOf).seen }
  obtain ⟨hsame, hget⟩ := foldl_prunePhi (f1.phisOf fun l => f1.reachable l) f1
  refine ⟨_, by rw [prune, if_neg (by simp [hne])], hsame, ?_⟩
  rw [hsame]
  exact hget

/-! ## Expressions -/

theorem firstError_ok_iff {α ε : Type} {check : α → Except ε Unit} {as : List α} :
    firstError check as = .ok () ↔ ∀ a ∈ as, check a = .ok () := by
  induction as with
  | nil => exact iff_of_true rfl (by simp)
  | cons a as ih =>
    rw [firstError, List.forall_mem_cons, ← ih]
    cases check a <;> simp

theorem usable_ok_iff {x : Ref} : f.usable x = .ok e ↔
    f.entryOf? x = some e ∧ f.reachable e.block = true ∧ e.ty.isVoid = false := by
  unfold usable
  cases f.entryOf? x with
  | none => simp
  | some e' =>
    constructor
    · intro h
      dsimp only at h
      split_ifs at h with hreach hvoid
      cases h
      rw [Bool.not_eq_true] at hvoid
      exact ⟨rfl, by simpa using hreach, hvoid⟩
    · rintro ⟨he, hreach, hvoid⟩
      cases he
      simp [hreach, hvoid]

theorem verifyOperand_ok_iff {x : Expr} {y : Ref} :
    f.verifyOperand g l b place id x y = .ok () ↔ ∃ e, f.usable y = .ok e ∧
      (e.block = l ∧ placeIn b y.toNat < place ∨ e.block ≠ l ∧ g.dominates e.block l = true) := by
  unfold verifyOperand
  cases f.usable y with
  | error e => simp
  | ok e =>
    by_cases hl : e.block = l
    · by_cases hplace : (place : Int) ≤ placeIn b y.toNat
      · simp [hl, hplace]
      · simp [hl, hplace, Int.not_le.1 hplace]
    · cases hdom : g.dominates e.block l <;> simp [hl, hdom]

theorem verifyBranch_ok_iff {br : PhiBranch} :
    f.verifyBranch g l id br = .ok () ↔ ∃ e, f.usable br.value = .ok e ∧
      e.ty = f.tyOf id ∧ g.dominates e.block br.block.toNat = true := by
  unfold verifyBranch
  cases f.usable br.value with
  | error e => simp
  | ok e =>
    by_cases hty : e.ty = f.tyOf id
    · cases hdom : g.dominates e.block br.block.toNat <;> simp [hty, hdom, Ty.equal_refl]
    · simp [hty, Ty.equal_eq_false_iff.2 hty]

theorem verifyPhi_ok_iff : f.verifyPhi g l id = .ok () ↔ (f.branches id).length = (g.preds.getD l []).length ∧
      (∀ p ∈ g.preds.getD l [], (f.branches id).countP (fun br => br.block == (p : Int)) = 1) ∧
      ∀ br ∈ f.branches id, f.verifyBranch g l id br = .ok () := by
  unfold verifyPhi
  dsimp only
  split
  · simp_all
  · rename_i hlen
    rw [seq_ok_iff, firstError_ok_iff, firstError_ok_iff]
    simp only [ite_ok_iff', not_not.1 hlen, true_and]

theorem verifyExpr_ok_iff (he : f.entries[id]? = some e) : f.verifyExpr g l b place id = .ok () ↔
      (∀ y ∈ e.expr.operands, f.verifyOperand g l b place id e.expr y = .ok ()) ∧
        f.verifyEnd l id e.expr = .ok () := by
  rw [verifyExpr, he, ← firstError_ok_iff]
  simp only [bind, Except.bind]
  cases firstError (f.verifyOperand g l b place id e.expr) e.expr.operands <;> simp

/-! ## Blocks -/

/-- A block passes its check if all that it lists does and it ends. -/
theorem verifyBlock_ok_iff (hb : f.blocks[l]? = some b) :
    f.verifyBlock g l = .ok (.ok ()) ↔ (∀ id ∈ b.phis, f.verifyPhi g l id = .ok ()) ∧
      (∀ (i id : Nat), b.code[i]? = some id → f.verifyExpr g l b i id = .ok ()) ∧
      ∃ t, b.term = some t ∧ f.verifyExpr g l b b.code.length t = .ok () := by
  have hcode : firstError (fun p => f.verifyExpr g l b p.2 p.1) b.code.zipIdx = .ok () ↔
      ∀ (i id : Nat), b.code[i]? = some id → f.verifyExpr g l b i id = .ok () := by
    rw [firstError_ok_iff]
    simp only [Prod.forall, List.mem_zipIdx_iff_getElem?]
    exact forall_comm
  rw [verifyBlock, hb, ← firstError_ok_iff, ← hcode]
  dsimp only
  cases firstError (f.verifyPhi g l) b.phis with
  | error e => simp
  | ok _ =>
    cases firstError (fun p => f.verifyExpr g l b p.2 p.1) b.code.zipIdx with
    | error e => simp
    | ok _ => cases b.term <;> simp

theorem verifyBlocks_ok_iff {ls : List Label} :
    f.verifyBlocks g ls = .ok (.ok ()) ↔ ∀ l ∈ ls, f.verifyBlock g l = .ok (.ok ()) := by
  induction ls with
  | nil => exact iff_of_true rfl (by simp)
  | cons l ls ih =>
    rw [verifyBlocks, List.forall_mem_cons, ← ih]
    cases hl : f.verifyBlock g l with
    | error e => simp
    | ok r =>
      cases r with
      | error e => simp
      | ok u => simp

theorem verifyBlocks_total {ls : List Label} (hls : ∀ l ∈ ls, ∀ b, f.blocks[l]? = some b → ∃ t, b.term = some t) :
    ∃ r, f.verifyBlocks g ls = .ok r := by
  induction ls with
  | nil => exact ⟨_, rfl⟩
  | cons l ls ih =>
    have hblock : ∃ r, f.verifyBlock g l = .ok r := by
      unfold verifyBlock
      split
      · exact ⟨_, rfl⟩
      rename_i b hb
      obtain ⟨t, ht⟩ := hls l List.mem_cons_self b hb
      split
      · exact ⟨_, rfl⟩
      · split
        · exact ⟨_, rfl⟩
        · rw [ht]
          exact ⟨_, rfl⟩
    obtain ⟨r, hr⟩ := hblock
    rw [verifyBlocks, hr]
    cases r with
    | error e => exact ⟨_, rfl⟩
    | ok u => exact ih fun k hk => hls k (List.mem_cons_of_mem _ hk)

theorem verifyEdges_ok_iff : f.verifyEdges l b = .ok () ↔
    (∃ t, b.term = some t) ∧ ∀ s ∈ f.targets b, 0 ≤ s ∧ s < f.blocks.size := by
  unfold verifyEdges
  cases b.term with
  | none => simp
  | some t => simp [firstError_ok_iff, fetch?_isSome_iff]

/-! ## Functions -/

/-- The reachable blocks pass the check of edges: they end and lead to blocks. -/
def EdgesPass (f : Func) : Prop :=
  ∀ (l : Label) (b : Block), f.blocks[l]? = some b → f.reachable l = true → f.verifyEdges l b = .ok ()

theorem edges_ok_iff : firstError (fun p => if f.reachable p.2 then f.verifyEdges p.2 p.1 else .ok ())
      f.blocks.toList.zipIdx = .ok () ↔ f.EdgesPass := by
  rw [firstError_ok_iff]
  simp only [Prod.forall, List.mem_zipIdx_iff_getElem?, Array.getElem?_toList]
  refine ⟨fun h l b hb hl => ?_, fun h b l hb => ?_⟩
  · have := h b l hb
    rwa [if_pos hl] at this
  · split
    · exact h l b hb ‹_›
    · rfl

/-- A function passes its check with the graph of its blocks if its edges and all blocks of the graph
do. -/
theorem verifyPruned_ok_iff : f.verifyPruned = .ok (.ok g) ↔
    f.EdgesPass ∧ Graph.build f.blocks.size f.succsOf = .ok g ∧
      ∀ l ∈ g.rpo, f.verifyBlock g l = .ok (.ok ()) := by
  rw [← edges_ok_iff, verifyPruned]
  cases firstError (fun p => if f.reachable p.2 then f.verifyEdges p.2 p.1 else .ok ())
    f.blocks.toList.zipIdx with
  | error e => simp
  | ok _ =>
    cases Graph.build f.blocks.size f.succsOf with
    | error e => simp [bind, Except.bind]
    | ok g' =>
      simp only [bind, Except.bind, Except.ok.injEq, true_and]
      refine ⟨fun h => ?_, ?_⟩
      · split at h
        · cases h
        · rename_i r hblocks
          cases r with
          | error e => cases h
          | ok _ =>
            cases h
            exact ⟨rfl, verifyBlocks_ok_iff.1 hblocks⟩
      · rintro ⟨rfl, hall⟩
        rw [verifyBlocks_ok_iff.2 hall]
        rfl

/-- Checking a function is no fault if blocks that pass the check of edges have a graph, with reachable
blocks only. -/
theorem verifyPruned_returns (hg : f.EdgesPass → ∃ g, Graph.build f.blocks.size f.succsOf = .ok g ∧
      ∀ l ∈ g.rpo, f.reachable l = true) : ∃ r, f.verifyPruned = .ok r := by
  rw [← edges_ok_iff] at hg
  rw [verifyPruned]
  cases hedges : firstError (fun p => if f.reachable p.2 then f.verifyEdges p.2 p.1 else .ok ())
    f.blocks.toList.zipIdx with
  | error e => exact ⟨_, rfl⟩
  | ok _ =>
    obtain ⟨g, hbuild, hreach⟩ := hg hedges
    obtain ⟨r, hr⟩ := verifyBlocks_total (f := f) (g := g) fun l hl b hb =>
      (verifyEdges_ok_iff.1 (edges_ok_iff.1 hedges l b hb (hreach l hl))).1
    rw [hbuild]
    simp only [bind, Except.bind, hr]
    cases r <;> exact ⟨_, rfl⟩

theorem verify_eq_of_error {e : BuildError} (he : f.error = some e) :
    f.verify = .ok (f, .error (.built f.name e)) := by
  rw [verify, he]

theorem verify_unchecked (hpos : 0 < f.blocks.size) (he : f.error = none) (hr : f.reach = #[])
    (hp : f.prune = .ok f') : f.verify = f'.verifyPruned.map fun r => (f', r) := by
  have hne : f.blocks.isEmpty = false := by
    simpa [Array.isEmpty_iff_size_eq_zero] using Nat.ne_of_gt hpos
  rw [verify, he]
  simp only [hne, Bool.false_eq_true, if_false, hr, Array.isEmpty_empty, if_true, hp, bind, Except.bind]
  cases f'.verifyPruned <;> rfl

theorem verify_checked (hpos : 0 < f.blocks.size) (he : f.error = none)
    (hr : f.reach.isEmpty = false) : f.verify = f.verifyPruned.map fun r => (f, r) := by
  have hne : f.blocks.isEmpty = false := by
    simpa [Array.isEmpty_iff_size_eq_zero] using Nat.ne_of_gt hpos
  rw [verify, he]
  simp only [hne, Bool.false_eq_true, if_false, hr, bind, Except.bind]
  cases f.verifyPruned <;> rfl

end Codesmith.Ssa.Func
