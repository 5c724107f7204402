import Codesmith.Proofs.Ssa.Simplify

/-!
# Functions that calls have built

`Func.Made` holds of every function that the calls of this library lead to, in whatever order they are
made. All of them keep the tables in order (`Func.Tabled`): what a block lists is in the table, belongs to
that block, and is a phi exactly if it stands at the head.
-/

namespace Codesmith.Ssa

theorem Expr.isPhi_mapOperands (σ : Ref → Ref) (x : Expr) : (x.mapOperands σ).isPhi = x.isPhi := by
  cases x with
  | ret y => cases y <;> rfl
  | _ => rfl

namespace Func

variable {r : Except VerifyError Graph}

/-- A function that calls have built, checked or simplified. -/
inductive Made : Func → Prop
  | create (name : String) (sig : Signature) : Made (create name sig)
  | newBlock {f : Func} (name : String) : Made f → Made (f.newBlock name).2
  | add {f : Func} (b : Int) (x : Expr) (ty : Ty) (position : Option Position) :
      Made f → Made (f.add b x ty position).2
  | addIncoming {f : Func} (id : Ref) (source : Int) (x : Ref) : Made f → Made (f.addIncoming id source x)
  | prune {f f' : Func} : Made f → f.prune = .ok f' → Made f'
  | verify {f f' : Func} {r : Except VerifyError Graph} : Made f → f.verify = .ok (f', r) → Made f'
  | removeTrivialPhis {f : Func} : Made f → Made f.removeTrivialPhis.2
  | compile {f f' : Func} {r : Except CompileError Program} :
      Made f → f.compile = .ok (f', r) → Made f'

/-- Blocks list expressions of their own, phis at the head and other expressions behind them. -/
structure Tabled (f : Func) : Prop where
  pos : 0 < f.blocks.size
  phis : ∀ (l : Label) (b : Block) (id : Nat), f.blocks[l]? = some b → id ∈ b.phis →
    ∃ e, f.entries[id]? = some e ∧ e.block = l ∧ e.expr.isPhi = true
  code : ∀ (l : Label) (b : Block) (id : Nat), f.blocks[l]? = some b → id ∈ b.code →
    ∃ e, f.entries[id]? = some e ∧ e.block = l ∧ e.expr.isPhi = false
  nodup : ∀ (l : Label) (b : Block), f.blocks[l]? = some b → b.phis.Nodup

variable {f f' : Func}

/-! ## Calls keep tables in order -/

/-- The second table has the expressions of the first, in the same blocks and phis where they were. -/
def Keeps (f f' : Func) : Prop :=
  ∀ (id : Nat) e, f.entries[id]? = some e →
    ∃ e', f'.entries[id]? = some e' ∧ e'.block = e.block ∧ e'.expr.isPhi = e.expr.isPhi

theorem Keeps.refl (f : Func) : f.Keeps f :=
  fun _ e he => ⟨e, he, rfl, rfl⟩

theorem Tabled.of_keeps (h : f.Tabled) (hk : f.Keeps f') (hblocks : f'.blocks = f.blocks) : f'.Tabled where
  pos := hblocks ▸ h.pos
  phis l b id hb hid := by
    obtain ⟨e, he, hl, hphi⟩ := h.phis l b id (hblocks ▸ hb) hid
    obtain ⟨e', he', hl', hphi'⟩ := hk id e he
    exact ⟨e', he', hl'.trans hl, hphi'.trans hphi⟩
  code l b id hb hid := by
    obtain ⟨e, he, hl, hphi⟩ := h.code l b id (hblocks ▸ hb) hid
    obtain ⟨e', he', hl', hphi'⟩ := hk id e he
    exact ⟨e', he', hl'.trans hl, hphi'.trans hphi⟩
  nodup l b hb := h.nodup l b (hblocks ▸ hb)

theorem Tabled.newBlock (h : f.Tabled) (name : String) : (f.newBlock name).2.Tabled := by
  have hget : ∀ (l : Label) (b : Block), (f.blocks.push { name })[l]? = some b →
      f.blocks[l]? = some b ∨ b = { name } := by
    intro l b hb
    rw [Array.getElem?_push] at hb
    split at hb
    · exact .inr (Option.some.inj hb).symm
    · exact .inl hb
  refine ⟨by simp [Func.newBlock], fun l b id hb hid => ?_, fun l b id hb hid => ?_, fun l b hb => ?_⟩
  · rcases hget l b hb with hb | rfl
    · exact h.phis l b id hb hid
    · cases hid
  · rcases hget l b hb with hb | rfl
    · exact h.code l b id hb hid
    · cases hid
  · rcases hget l b hb with hb | rfl
    · exact h.nodup l b hb
    · exact List.nodup_nil

theorem keeps_push (f : Func) (e : Entry) : f.Keeps { f with entries := f.entries.push e } := by
  intro id e' he
  refine ⟨e', ?_, rfl, rfl⟩
  have hlt := (Array.getElem?_eq_some_iff.1 he).1
  rwa [Array.getElem?_push, if_neg (Nat.ne_of_lt hlt)]

theorem Tabled.add (h : f.Tabled) (b : Int) (x : Expr) (ty : Ty) (position : Option Position) :
    (f.add b x ty position).2.Tabled := by
  unfold Func.add
  split
  · exact h.of_keeps (.refl f) rfl
  rename_i blk hblk
  split
  · exact h.of_keeps (.refl f) rfl
  -- The new expression is listed once, where its form belongs.
  obtain ⟨l, rfl, hl⟩ := fetch?_eq_some_iff.1 hblk
  have hgrown := h.of_keeps (keeps_push f ⟨x, ty, position, l⟩) rfl
  have hnew : (f.entries.push ⟨x, ty, position, l⟩)[f.entries.size]? = some ⟨x, ty, position, l⟩ := by
    simp
  have hget : ∀ (k : Label) (b : Block),
      (f.blocks.modify l fun blk => Block.push blk f.entries.size x)[k]? = some b →
      f.blocks[k]? = some b ∨ k = l ∧ b = Block.push blk f.entries.size x := by
    intro k b hb
    rw [Array.getElem?_modify] at hb
    split at hb
    · rename_i heq
      subst heq
      rw [hl, Option.map_some] at hb
      exact .inr ⟨rfl, (Option.some.inj hb).symm⟩
    · exact .inl hb
  refine ⟨by simpa using h.pos, fun k b id hb hid => ?_, fun k b id hb hid => ?_, fun k b hb => ?_⟩
  · rcases hget k b hb with hb | ⟨rfl, rfl⟩
    · exact hgrown.phis k b id hb hid
    · unfold Block.push at hid
      split_ifs at hid with hphi hterm
      · rcases List.mem_append.1 hid with hid | hid
        · exact hgrown.phis k blk id hl hid
        · rw [List.mem_singleton.1 hid]
          exact ⟨_, hnew, rfl, hphi⟩
      · exact hgrown.phis k blk id hl hid
      · exact hgrown.phis k blk id hl hid
  · rcases hget k b hb with hb | ⟨rfl, rfl⟩
    · exact hgrown.code k b id hb hid
    · unfold Block.push at hid
      split_ifs at hid with hphi hterm
      · exact hgrown.code k blk id hl hid
      · exact hgrown.code k blk id hl hid
      · rcases List.mem_append.1 hid with hid | hid
        · exact hgrown.code k blk id hl hid
        · rw [List.mem_singleton.1 hid]
          exact ⟨_, hnew, rfl, Bool.eq_false_iff.2 hphi⟩
  · rcases hget k b hb with hb | ⟨rfl, rfl⟩
    · exact h.nodup k b hb
    · unfold Block.push
      split_ifs
      · refine List.nodup_append.2 ⟨h.nodup k blk hl, List.nodup_singleton _, fun i hi j hj => ?_⟩
        obtain ⟨e, he, -⟩ := h.phis k blk i hl hi
        rw [List.mem_singleton.1 hj]
        exact Nat.ne_of_lt (Array.getElem?_eq_some_iff.1 he).1
      · exact h.nodup k blk hl
      · exact h.nodup k blk hl

theorem tabled_create (name : String) (sig : Signature) : (create name sig).Tabled := by
  have hargs : ∀ (ts : List Ty) (i : Nat) (f : Func), f.Tabled → (f.addArgs i ts).Tabled := by
    intro ts
    induction ts with
    | nil => exact fun i f h => h
    | cons t ts ih => exact fun i f h => ih _ _ ((h.add _ _ _ _).of_keeps (.refl _) rfl)
  refine hargs sig.params 0 _ ⟨by simp [Func.newBlock], fun l b id hb hid => ?_,
    fun l b id hb hid => ?_, fun l b hb => ?_⟩
  all_goals
    obtain rfl : b = { name := "entry" } := by
      simp only [Func.newBlock, List.push_toArray, List.nil_append, List.getElem?_toArray] at hb
      rw [List.getElem?_singleton] at hb
      split at hb
      · exact (Option.some.inj hb).symm
      · cases hb
  · cases hid
  · cases hid
  · exact List.nodup_nil

theorem keeps_setExpr {n : Nat} {x : Expr} (h : ∀ e, f.entries[n]? = some e → x.isPhi = e.expr.isPhi) :
    f.Keeps (f.setExpr n x) := by
  intro id e he
  simp only [setExpr, Array.getElem?_modify]
  by_cases hid : n = id
  · subst hid
    rw [if_pos rfl, he]
    exact ⟨_, rfl, rfl, h e he⟩
  · rw [if_neg hid]
    exact ⟨e, he, rfl, rfl⟩

theorem Tabled.addIncoming (h : f.Tabled) (id : Ref) (source : Int) (x : Ref) :
    (f.addIncoming id source x).Tabled := by
  unfold Func.addIncoming
  split
  · exact h.of_keeps (.refl f) rfl
  rename_i bs hbs
  obtain ⟨n, rfl, e, he, hexpr⟩ := phi?_eq_some_iff.1 hbs
  refine h.of_keeps (keeps_setExpr fun e' he' => ?_) rfl
  rw [Int.toNat_natCast, he] at he'
  rw [← Option.some.inj he', hexpr]
  rfl

theorem Tabled.prune (h : f.Tabled) (hp : f.prune = .ok f') : f'.Tabled := by
  obtain ⟨f1, hp', hsame, hget⟩ := prune_eq h.pos
  obtain rfl : f1 = f' := Except.ok.inj (hp'.symm.trans hp)
  have hblocks : f1.blocks = f.blocks := by rw [hsame]
  refine h.of_keeps (fun id e he => ?_) hblocks
  refine ⟨_, by rw [hget, he]; rfl, ?_⟩
  split
  · rename_i hid
    obtain ⟨l, b, hb, -, hmem⟩ := mem_phisOf.1 hid
    obtain ⟨e', he', -, hphi⟩ := h.phis l b id (hblocks ▸ hb) hmem
    cases he.symm.trans he'
    exact ⟨rfl, hphi.symm⟩
  · exact ⟨rfl, rfl⟩

theorem verify_fst (h : f.verify = .ok (f', r)) : f' = f ∨ f.prune = .ok f' := by
  unfold verify at h
  split at h
  · exact .inl (Prod.mk.inj (Except.ok.inj h)).1.symm
  split at h
  · exact .inl (Prod.mk.inj (Except.ok.inj h)).1.symm
  split at h
  · obtain ⟨f1, hp, h⟩ := bind_eq_ok.1 h
    obtain ⟨r1, -, h⟩ := bind_eq_ok.1 h
    exact .inr ((Prod.mk.inj (Except.ok.inj h)).1 ▸ hp)
  · obtain ⟨f1, hf, h⟩ := bind_eq_ok.1 h
    obtain ⟨r1, -, h⟩ := bind_eq_ok.1 h
    exact .inl ((Prod.mk.inj (Except.ok.inj h)).1.symm.trans (Except.ok.inj hf).symm)

theorem Tabled.verify (h : f.Tabled) (hv : f.verify = .ok (f', r)) : f'.Tabled := by
  rcases verify_fst hv with rfl | hp
  · exact h
  · exact h.prune hp

theorem Tabled.removeTrivialPhis (h : f.Tabled) : f.removeTrivialPhis.2.Tabled := by
  have hdrop : ({ f with blocks := f.dropPhis f.trivialPhis } : Func).Tabled := by
    have hget : ∀ (l : Label) (b : Block), (f.dropPhis f.trivialPhis)[l]? = some b →
        ∃ b', f.blocks[l]? = some b' ∧ b.phis.Sublist b'.phis ∧ b.code = b'.code := by
      intro l b hb
      rw [dropPhis_getElem?] at hb
      obtain ⟨b', hb', rfl⟩ := Option.map_eq_some_iff.1 hb
      refine ⟨b', hb', ?_⟩
      split
      · exact ⟨List.filter_sublist, rfl⟩
      · exact ⟨List.Sublist.refl _, rfl⟩
    refine ⟨by simpa [dropPhis] using h.pos, fun l b id hb hid => ?_, fun l b id hb hid => ?_,
      fun l b hb => ?_⟩
    · obtain ⟨b', hb', hsub, -⟩ := hget l b hb
      exact h.phis l b' id hb' (hsub.subset hid)
    · obtain ⟨b', hb', -, hcode⟩ := hget l b hb
      exact h.code l b' id hb' (hcode ▸ hid)
    · obtain ⟨b', hb', hsub, -⟩ := hget l b hb
      exact (h.nodup l b' hb').sublist hsub
  have hrename : ∀ (s : Replaced) (ids : List Nat) (f : Func), f.Tabled →
      (ids.foldl (renameOperands s) f).Tabled := by
    intro s ids
    induction ids with
    | nil => exact fun f h => h
    | cons id ids ih =>
      refine fun f h => ih _ (h.of_keeps (fun i e he => ?_) rfl)
      simp only [renameOperands, Array.getElem?_modify, he]
      split
      · exact ⟨_, rfl, rfl, Expr.isPhi_mapOperands _ _⟩
      · exact ⟨e, rfl, rfl, rfl⟩
  unfold Func.removeTrivialPhis
  dsimp only
  split
  · exact h
  · exact hrename _ _ _ hdrop

theorem Tabled.compile (h : f.Tabled) {r : Except CompileError Program}
    (hc : f.compile = .ok (f', r)) : f'.Tabled := by
  unfold Func.compile at hc
  obtain ⟨f1, hp, hc⟩ := bind_eq_ok.1 hc
  obtain ⟨⟨f2, checked⟩, hv, hc⟩ := bind_eq_ok.1 hc
  have h2 := (h.prune hp).verify hv
  cases checked with
  | error e => exact (Prod.mk.inj (Except.ok.inj hc)).1 ▸ h2
  | ok g =>
    obtain ⟨⟨f3, checked'⟩, hv', hc⟩ := bind_eq_ok.1 hc
    have h3 := h2.removeTrivialPhis.verify hv'
    cases checked' <;> exact (Prod.mk.inj (Except.ok.inj hc)).1 ▸ h3

/-- Whatever calls were made, the tables are in order. -/
theorem Made.tabled (h : f.Made) : f.Tabled := by
  induction h with
  | create name sig => exact tabled_create name sig
  | newBlock name _ ih => exact ih.newBlock name
  | add b x ty position _ ih => exact ih.add b x ty position
  | addIncoming id source x _ ih => exact ih.addIncoming id source x
  | prune _ hp ih => exact ih.prune hp
  | verify _ hv ih => exact ih.verify hv
  | removeTrivialPhis _ ih => exact ih.removeTrivialPhis
  | compile _ hc ih => exact ih.compile hc

end Func

end Codesmith.Ssa
