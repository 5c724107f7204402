import Codesmith.Proofs.Ssa.Accepted

/-!
# Checks between the calls that build a function

Pruning notes which blocks are reachable and drops branches of phis for good, and a later check trusts the
note. After checks in the middle of the construction, the finished function compiles as if nothing had been
checked before, if no check has dropped a branch from a block that is reachable in the end. If the blocks
that are reachable at each check are those that are reachable in the end, no check is a fault. The function
is then also verified alike, unless a branch from a block that stays unreachable was added after a check.
Where other blocks become reachable later, all of this fails.
-/

namespace Codesmith.Ssa

/-- A call that builds a function. -/
inductive BuildCall
  | newBlock (name : String)
  | add (b : Int) (x : Expr) (ty : Ty) (position : Option Position)
  | addIncoming (id : Ref) (source : Int) (x : Ref)

/-- A call that builds a function, or a check in between. -/
inductive Call
  | build (c : BuildCall)
  | prune
  | verify

namespace Call

def isCheck : Call → Bool
  | build _ => false
  | prune | verify => true

/-- The calls without the checks. -/
def building (calls : List Call) : List BuildCall :=
  calls.filterMap fun
    | build c => some c
    | _ => none

end Call

/-- Something holds of the calls before and behind each check. -/
def AtChecks (P : List BuildCall → List BuildCall → Prop) : List Call → Prop
  | [] => True
  | .build c :: calls => AtChecks (fun pre => P (c :: pre)) calls
  | .prune :: calls | .verify :: calls => P [] (Call.building calls) ∧ AtChecks P calls

/-- The blocks from which a call gives values to phis. -/
def BuildCall.sources : BuildCall → List Int
  | add _ x _ _ => x.branches.map PhiBranch.block
  | addIncoming _ source _ => [source]
  | newBlock _ => []

namespace Func

variable {f' : Func}

def apply (f : Func) : BuildCall → Func
  | .newBlock name => (f.newBlock name).2
  | .add b x ty position => (f.add b x ty position).2
  | .addIncoming id source x => f.addIncoming id source x

/-- The function after a call; a check may be a fault. -/
def perform (f : Func) : Call → Except Fault Func
  | .build c => .ok (f.apply c)
  | .prune => f.prune
  | .verify => f.verify.map Prod.fst

def built (name : String) (sig : Signature) (cs : List BuildCall) : Func :=
  cs.foldl apply (create name sig)

/-- The function that calls build with checks in between. -/
def performed (name : String) (sig : Signature) (calls : List Call) : Except Fault Func :=
  calls.foldlM perform (create name sig)

variable {f b : Func} {L : Int → Bool}

/-- Checking a function is no fault if the reachable blocks are known. -/
theorem verifyPruned_total (hpos : 0 < f.blocks.size) (hlive : ∀ l, f.reachable l = f.live l) :
    ∃ r, f.verifyPruned = .ok r := by
  refine verifyPruned_returns fun hedges => ?_
  have hrange := edges_of_checks hpos hlive hedges
  obtain ⟨g, hg, hdesc⟩ := Graph.build_ok hpos hrange
  refine ⟨g, hg, fun l hl => (hlive l).trans (live_iff.2 ?_)⟩
  exact (Graph.explore_saw_iff hpos hrange l).2 ((hdesc.order.mem l).1 hl)

/-! ## What a check changes -/

/-- The expressions at a number are the same, or are phis at the head of a block in `L` with the same
branches from blocks in `L`. -/
def SameEntry (L : Int → Bool) (f b : Func) (i : Nat) : Prop :=
  f.entries[i]? = b.entries[i]? ∨ ∃ (l : Label) (blk : Block) (e : Entry) (bs bs' : List PhiBranch),
    b.blocks[l]? = some blk ∧ L l = true ∧ i ∈ blk.phis ∧ b.entries[i]? = some { e with expr := .phi bs } ∧
      f.entries[i]? = some { e with expr := .phi bs' } ∧
      bs'.filter (fun br => L br.block) = bs.filter fun br => L br.block

/-- The first function is the second after checks that dropped no branches from blocks in `L`. -/
structure Thinned (L : Int → Bool) (f b : Func) : Prop where
  same : f = { b with entries := f.entries, reach := f.reach }
  size : f.entries.size = b.entries.size
  entries : ∀ i, SameEntry L f b i
  tabled : f.Tabled
  unchecked : b.reach = #[]

namespace Thinned

variable (h : Thinned L f b)
include h

theorem blocks : f.blocks = b.blocks := by
  rw [h.same]

theorem error : f.error = b.error := by
  rw [h.same]

theorem succsOf : f.succsOf = b.succsOf := by
  refine succsOf_congr h.blocks fun i => ?_
  rcases h.entries i with heq | ⟨l, blk, e, bs, bs', -, -, -, hb, hf, -⟩
  · rw [heq]
  · rw [hb, hf]
    rfl

theorem live : f.live = b.live := by
  funext l
  rw [Func.live, Func.live, h.blocks, h.succsOf]

theorem phi? (id : Nat) : (f.phi? id).isSome = (b.phi? id).isSome := by
  rw [Func.phi?, Func.phi?, entryOf?, entryOf?, fetch?_natCast, fetch?_natCast]
  rcases h.entries id with heq | ⟨l, blk, e, bs, bs', -, -, -, hb, hf, -⟩
  · rw [heq]
  · rw [hb, hf]
    rfl

end Thinned

/-! ## Building on -/

theorem SameEntry.mono {b' : Func} {i : Nat} (h : SameEntry L f b i) (hf : f'.entries[i]? = f.entries[i]?)
    (hb : b'.entries[i]? = b.entries[i]?) (hblocks : ∀ (l : Label) (blk : Block), b.blocks[l]? = some blk →
      ∃ blk', b'.blocks[l]? = some blk' ∧ blk.phis ⊆ blk'.phis) : SameEntry L f' b' i := by
  rcases h with heq | ⟨l, blk, e, bs, bs', hblk, hl, hi, hb', hf', hbs⟩
  · exact .inl (by rw [hf, hb, heq])
  · obtain ⟨blk', hblk', hsub⟩ := hblocks l blk hblk
    exact .inr ⟨l, blk', e, bs, bs', hblk', hl, hsub hi, hb.trans hb', hf.trans hf', hbs⟩

theorem Thinned.newBlock (h : Thinned L f b) (name : String) :
    Thinned L (f.newBlock name).2 (b.newBlock name).2 where
  same := by
    simp only [Func.newBlock]
    rw [h.same]
  size := h.size
  entries i := (h.entries i).mono rfl rfl fun l blk hblk => by
    have hlt := (Array.getElem?_eq_some_iff.1 hblk).1
    refine ⟨blk, ?_, List.Subset.refl _⟩
    simpa only [Func.newBlock, Array.getElem?_push, if_neg (Nat.ne_of_lt hlt)] using hblk
  tabled := h.tabled.newBlock name
  unchecked := h.unchecked

theorem Thinned.fail (h : Thinned L f b) (e : BuildError) : Thinned L (f.fail e) (b.fail e) where
  same := by
    simp only [Func.fail]
    rw [h.same]
  size := h.size
  entries i := (h.entries i).mono rfl rfl fun l blk hblk => ⟨blk, hblk, List.Subset.refl _⟩
  tabled := h.tabled.of_keeps (.refl f) rfl
  unchecked := h.unchecked

theorem Block.phis_push (blk : Block) (id : Nat) (x : Expr) : blk.phis ⊆ (Block.push blk id x).phis := by
  unfold Block.push
  split_ifs
  · exact List.subset_append_left _ _
  · exact List.Subset.refl _
  · exact List.Subset.refl _

theorem Thinned.add (h : Thinned L f b) (l : Int) (x : Expr) (ty : Ty)
    (position : Option Position) : Thinned L (f.add l x ty position).2 (b.add l x ty position).2 := by
  have htabled := h.tabled.add l x ty position
  unfold Func.add at htabled ⊢
  rw [h.blocks] at htabled ⊢
  split
  · exact h.fail _
  rename_i blk hblk
  simp only [hblk] at htabled
  split
  · exact h.fail _
  rename_i hopen
  simp only [if_neg hopen] at htabled
  refine ⟨?_, by simp [h.size], fun i => ?_, htabled, h.unchecked⟩
  · simp only [h.size]
    rw [h.same]
  · by_cases hi : i = f.entries.size
    · left
      simp only [hi, Array.getElem?_push, h.size, if_true]
    · refine (h.entries i).mono ?_ ?_ fun k blk' hblk' => ?_
      · simp [Array.getElem?_push, hi]
      · simp [Array.getElem?_push, h.size ▸ hi]
      · simp only [Array.getElem?_modify]
        split
        · exact ⟨_, by rw [hblk']; rfl, Block.phis_push _ _ _⟩
        · exact ⟨blk', hblk', List.Subset.refl _⟩

theorem setExpr_getElem? (f : Func) (n : Nat) (x : Expr) (i : Nat) : (f.setExpr n x).entries[i]? =
      if n = i then f.entries[i]?.map fun e => { e with expr := x } else f.entries[i]? :=
  Array.getElem?_modify

theorem Thinned.addIncoming (h : Thinned L f b) (id : Ref) (source : Int) (x : Ref) :
    Thinned L (f.addIncoming id source x) (b.addIncoming id source x) := by
  have htabled := h.tabled.addIncoming id source x
  unfold Func.addIncoming at htabled ⊢
  cases hb : b.phi? id with
  | none =>
    have hf : f.phi? id = none := by
      cases id with
      | negSucc k => rfl
      | ofNat n =>
        have := h.phi? n
        rw [show b.phi? (n : Int) = none from hb] at this
        simpa using this
    simp only [hf]
    exact h.fail _
  | some bs =>
    obtain ⟨n, rfl, e, he, hexpr⟩ := phi?_eq_some_iff.1 hb
    -- The phi gets the same branch at the end, whatever it has lost.
    obtain ⟨bs', hf, hsame⟩ : ∃ bs', f.phi? n = some bs' ∧
        SameEntry L (f.setExpr n (.phi (bs' ++ [⟨source, x⟩]))) (b.setExpr n (.phi (bs ++ [⟨source, x⟩]))) n := by
      rcases h.entries n with heq | ⟨l, blk, e', bs0, bs', hblk, hl, hn, hb', hf', hbs⟩
      · refine ⟨bs, phi?_eq_some_iff.2 ⟨n, rfl, e, heq.trans he, hexpr⟩, .inl ?_⟩
        rw [setExpr_getElem?, setExpr_getElem?, heq]
      · obtain rfl := Option.some.inj (hb'.symm.trans he)
        cases hexpr
        refine ⟨bs', phi?_eq_some_iff.2 ⟨n, rfl, _, hf', rfl⟩, .inr ⟨l, blk, e', bs ++ [⟨source, x⟩],
          bs' ++ [⟨source, x⟩], hblk, hl, hn, ?_, ?_, ?_⟩⟩
        · rw [setExpr_getElem?, if_pos rfl, hb']
          rfl
        · rw [setExpr_getElem?, if_pos rfl, hf']
          rfl
        · rw [List.filter_append, List.filter_append, hbs]
    simp only [hf, Int.toNat_natCast] at htabled ⊢
    refine ⟨?_, by simpa [setExpr] using h.size, fun i => ?_, htabled, h.unchecked⟩
    · rw [h.same]
      rfl
    · by_cases hi : n = i
      · exact hi ▸ hsame
      · exact (h.entries i).mono (by rw [setExpr_getElem?, if_neg hi]) (by rw [setExpr_getElem?, if_neg hi])
          fun k blk hblk => ⟨blk, hblk, List.Subset.refl _⟩

theorem Thinned.apply (h : Thinned L f b) (c : BuildCall) : Thinned L (f.apply c) (b.apply c) := by
  cases c with
  | newBlock name => exact h.newBlock name
  | add l x ty position => exact h.add l x ty position
  | addIncoming id source x => exact h.addIncoming id source x

/-! ## What was reachable stays so -/

theorem edge_iff {a t : Label} : Graph.Edge f.succsOf a t ↔ ∃ (blk : Block) (id : Nat) (e : Entry),
    f.blocks[a]? = some blk ∧ blk.term = some id ∧ f.entries[id]? = some e ∧ (t : Int) ∈ e.expr.targets := by
  rw [Graph.Edge, Func.succsOf]
  cases f.blocks[a]? with
  | none => simp
  | some blk =>
    cases hterm : blk.term with
    | none => simp [targets, hterm]
    | some id => cases he : f.entries[id]? <;> simp [targets, hterm, entryOf?, fetch?_natCast, he]

/-- A call keeps the note and the edges: a block that has ended gets phis only, and phis lead nowhere. -/
theorem grows_apply (f : Func) (c : BuildCall) : (f.apply c).reach = f.reach ∧
    f.blocks.size ≤ (f.apply c).blocks.size ∧
    ∀ a t, Graph.Edge f.succsOf a t → Graph.Edge (f.apply c).succsOf a t := by
  simp only [edge_iff]
  cases c with
  | newBlock name =>
    refine ⟨rfl, by simp [Func.apply, Func.newBlock], ?_⟩
    rintro a t ⟨blk, id, e, hblk, h⟩
    refine ⟨blk, id, e, ?_, h⟩
    rw [Func.apply, Func.newBlock, Array.getElem?_push, if_neg (Array.getElem?_eq_some_iff.1 hblk).1.ne, hblk]
  | add l x ty position =>
    rw [Func.apply, Func.add]
    split
    · exact ⟨rfl, le_rfl, fun _ _ h => h⟩
    split
    · exact ⟨rfl, le_rfl, fun _ _ h => h⟩
    rename_i blk' hblk' hopen
    obtain ⟨l, rfl, hl⟩ := fetch?_eq_some_iff.1 hblk'
    refine ⟨rfl, by simp, ?_⟩
    rintro a t ⟨blk, id, e, hblk, hterm, he, ht⟩
    have he' : (f.entries.push ⟨x, ty, position, l⟩)[id]? = some e := by
      rw [Array.getElem?_push, if_neg (Array.getElem?_eq_some_iff.1 he).1.ne, he]
    by_cases hla : l = a
    · subst hla
      cases hblk.symm.trans hl
      have hphi : x.isPhi = true := by simpa [hterm] using hopen
      refine ⟨Block.push blk' f.entries.size x, id, e, by simp [Array.getElem?_modify, hl], ?_, he', ht⟩
      rw [Block.push, if_pos hphi]
      exact hterm
    · exact ⟨blk, id, e, by simp [Array.getElem?_modify, hla, hblk], hterm, he', ht⟩
  | addIncoming n source x =>
    rw [Func.apply, Func.addIncoming]
    split
    · exact ⟨rfl, le_rfl, fun _ _ h => h⟩
    rename_i bs hbs
    obtain ⟨n, rfl, e', he', hexpr⟩ := phi?_eq_some_iff.1 hbs
    refine ⟨rfl, le_rfl, ?_⟩
    rintro a t ⟨blk, id, e, hblk, hterm, he, ht⟩
    refine ⟨blk, id, e, hblk, hterm, ?_, ht⟩
    rw [Int.toNat_natCast, setExpr_getElem?, if_neg, he]
    rintro rfl
    cases he.symm.trans he'
    rw [hexpr] at ht
    cases ht

theorem live_foldl (cs : List BuildCall) (hpos : 0 < f.blocks.size) {l : Int} (h : f.live l = true) :
    (cs.foldl Func.apply f).live l = true := by
  induction cs generalizing f with
  | nil => exact h
  | cons c cs ih =>
    obtain ⟨-, hsize, hedge⟩ := grows_apply f c
    refine ih (hpos.trans_le hsize) ?_
    cases l with
    | ofNat l => exact live_iff.2 (Graph.explore_mono hpos hsize hedge (live_iff.1 h))
    | negSucc l => cases h

/-! ## Checking -/

/-- Pruning the function drops no branch from a block in `L`. -/
def Spares (L : Int → Bool) (f : Func) : Prop :=
  ∀ (l : Label) (blk : Block) (id : Nat) (e : Entry), f.blocks[l]? = some blk → f.live l = true →
    id ∈ blk.phis → f.entries[id]? = some e → ∀ br ∈ e.expr.branches, L br.block = true → f.live br.block = true

theorem Thinned.prune (h : Thinned L f b) (hlive : ∀ l, b.live l = true → L l = true) (hspare : b.Spares L) :
    ∃ f', f.prune = .ok f' ∧ Thinned L f' b ∧ ∀ l, f'.reachable l = b.live l := by
  obtain ⟨f', hp, hsame, hget⟩ := prune_eq h.tabled.pos
  have hblocks : f'.blocks = b.blocks := by rw [hsame]; exact h.blocks
  have hreach : ∀ l, f'.reachable l = b.live l := fun l => by rw [reachable_prune h.tabled.pos hp, h.live]
  refine ⟨f', hp, ⟨?_, ?_, fun i => ?_, h.tabled.prune hp, h.unchecked⟩, hreach⟩
  · rw [hsame, h.same]
  · refine (size_eq_of_isSome fun i => ?_).trans h.size
    rw [hget, Option.isSome_map]
  · have hi := hget i
    split_ifs at hi with hid
    · obtain ⟨l, blk, hblk, hl, hmem⟩ := mem_phisOf.1 hid
      rw [hblocks] at hblk
      obtain ⟨e, he, -, hphi⟩ := h.tabled.phis l blk i (h.blocks ▸ hblk) hmem
      obtain ⟨bs', hbs'⟩ : ∃ bs', e.expr = .phi bs' := by
        cases hx : e.expr with
        | phi bs' => exact ⟨bs', rfl⟩
        | _ => rw [hx] at hphi; cases hphi
      have hkept : ∀ bs : List PhiBranch, liveBranches f'.reach bs = bs.filter fun br => b.live br.block :=
        fun bs => List.filter_congr fun br _ => hreach br.block
      rw [he, Option.map_some, hbs', Expr.branches, hkept] at hi
      replace hl : b.live l = true := (hreach l).symm.trans hl
      -- The branches from blocks in `L` are those of the function that was not checked.
      have hspared : ∀ {e : Entry} {bs : List PhiBranch}, b.entries[i]? = some { e with expr := .phi bs } →
          (bs'.filter fun br => L br.block) = (bs.filter fun br => L br.block) →
          (bs'.filter fun br => b.live br.block).filter (fun br => L br.block) =
            bs.filter fun br => L br.block := by
        intro e bs hb hbs
        rw [← hbs, List.filter_filter]
        refine List.filter_congr fun br hbr => ?_
        by_cases hL : L br.block = true
        · have hmem' : br ∈ bs.filter fun br => L br.block := hbs ▸ List.mem_filter.2 ⟨hbr, hL⟩
          rw [hL, hspare l blk i _ hblk hl hmem hb br (List.mem_filter.1 hmem').1 hL]
          rfl
        · simp [hL]
      refine .inr ?_
      rcases h.entries i with heq | ⟨k, blk', e', bs, bs'', -, -, -, hb', hf', hbs⟩
      · have hb : b.entries[i]? = some { e with expr := .phi bs' } := by rw [← heq, he, ← hbs']
        exact ⟨l, blk, e, bs', _, hblk, hlive l hl, hmem, hb, hi, hspared hb rfl⟩
      obtain rfl := Option.some.inj (hf'.symm.trans he)
      cases hbs'
      exact ⟨l, blk, e', bs, _, hblk, hlive l hl, hmem, hb', hi, hspared hb' hbs⟩
    · rw [Option.map_id'] at hi
      exact (h.entries i).mono hi rfl fun l blk hblk => ⟨blk, hblk, List.Subset.refl _⟩

/-- A check leaves the function as it is or prunes it. -/
theorem verify_cases (hpos : 0 < f.blocks.size) {r : Except VerifyError Graph} (h : f.verify = .ok (f', r)) :
    f' = f ∨ f.prune = .ok f' := by
  cases he : f.error with
  | some e =>
    rw [verify_eq_of_error he] at h
    cases h
    exact .inl rfl
  | none =>
    by_cases hr : f.reach = #[]
    · obtain ⟨f1, hp, -⟩ := prune_eq hpos
      rw [verify_unchecked hpos he hr hp] at h
      obtain ⟨_, -, heq⟩ := map_eq_ok.1 h
      cases heq
      exact .inr hp
    · rw [verify_checked hpos he (by simpa using hr)] at h
      obtain ⟨_, -, heq⟩ := map_eq_ok.1 h
      cases heq
      exact .inl rfl

section

variable (h : Thinned L f b) (hL : ∀ l, b.live l = L l)
include h hL

theorem Thinned.prune_live : ∃ f', f.prune = .ok f' ∧ Thinned L f' b ∧ ∀ l, f'.reachable l = L l := by
  obtain ⟨f', hp, h', hreach⟩ := h.prune (fun l hl => (hL l).symm.trans hl)
    fun _ _ _ _ _ _ _ _ br _ hbr => (hL br.block).trans hbr
  exact ⟨f', hp, h', fun l => (hreach l).trans (hL l)⟩

/-- A check in the middle is no fault if the reachable blocks are known or not noted yet. -/
theorem Thinned.verify (hnote : f.reach = #[] ∨ ∀ l, f.reachable l = L l) : ∃ f' r, f.verify = .ok (f', r) ∧
    Thinned L f' b ∧ (f'.reach = #[] ∨ ∀ l, f'.reachable l = L l) := by
  cases he : f.error with
  | some e => exact ⟨f, _, verify_eq_of_error he, h, hnote⟩
  | none =>
    rcases hnote with hempty | hreach
    · obtain ⟨f', hp, h', hreach⟩ := h.prune_live hL
      obtain ⟨r, hr⟩ := verifyPruned_total h'.tabled.pos fun l => by
        rw [hreach, h'.live, hL]
      refine ⟨f', r, ?_, h', .inr hreach⟩
      rw [verify_unchecked h.tabled.pos he hempty hp, hr]
      rfl
    · have hlive : ∀ l, f.reachable l = f.live l := fun l => by rw [hreach, h.live, hL]
      obtain ⟨r, hr⟩ := verifyPruned_total h.tabled.pos hlive
      refine ⟨f, r, ?_, h, .inr hreach⟩
      rw [verify_checked h.tabled.pos he (isEmpty_of_reachable h.tabled.pos hlive), hr]
      rfl

/-- Whatever was checked before, pruning at the end leads to the same function. -/
theorem Thinned.prune_eq_prune : f.prune = b.prune := by
  have hpos : 0 < b.blocks.size := h.blocks ▸ h.tabled.pos
  obtain ⟨f', hp, hsame, hget⟩ := prune_eq h.tabled.pos
  obtain ⟨b', hp', hsame', hget'⟩ := prune_eq hpos
  have hblocks : f'.blocks = b.blocks := by rw [hsame]; exact h.blocks
  have hblocks' : b'.blocks = b.blocks := by rw [hsame']
  have hreach : ∀ l, f'.reachable l = L l := fun l => by
    rw [reachable_prune h.tabled.pos hp, h.live, hL]
  have hreach' : ∀ l, b'.reachable l = L l := fun l => by
    rw [reachable_prune hpos hp', hL]
  have hids : ∀ i : Nat, i ∈ f'.phisOf (fun l => f'.reachable l) ↔
      i ∈ b'.phisOf (fun l => b'.reachable l) := fun i => by
    simp only [mem_phisOf, hblocks, hblocks', hreach, hreach']
  have hlive : ∀ bs, liveBranches f'.reach bs = bs.filter fun br => L br.block := fun bs =>
    List.filter_congr fun br _ => hreach br.block
  have hlive' : ∀ bs, liveBranches b'.reach bs = bs.filter fun br => L br.block := fun bs =>
    List.filter_congr fun br _ => hreach' br.block
  have hentries : f'.entries = b'.entries := by
    refine Array.ext_getElem? fun i => ?_
    rw [hget, hget']
    rcases h.entries i with heq | ⟨l, blk, e, bs, bs', hblk, hl, hi, hb, hf, hbs⟩
    · rw [heq]
      simp only [hids, hlive, hlive']
    · have hmem : i ∈ b'.phisOf fun l => b'.reachable l :=
        mem_phisOf.2 ⟨l, blk, hblocks' ▸ hblk, (hreach' l).trans hl, hi⟩
      simp only [hids, if_pos hmem, hf, hb, Option.map_some, Expr.branches, hlive, hlive', hbs]
  rw [hp, hp', hsame, hsame', hentries, h.succsOf, h.blocks, h.same]

end

/-! ## Notes that say the same -/

/-- Checking looks at the note of the reachable blocks only by asking for single blocks. -/
theorem verifyPruned_reach (hsame : f' = { f with reach := f'.reach })
    (h : ∀ l, f'.reachable l = f.reachable l) : f'.verifyPruned = f.verifyPruned := by
  have husable : f'.usable = f.usable := by
    funext x
    simp only [usable, h]
    rw [hsame]
    rfl
  have hbranch : f'.verifyBranch = f.verifyBranch := by
    funext g l id br
    simp only [verifyBranch, husable]
    rw [hsame]
    rfl
  have hphi : f'.verifyPhi = f.verifyPhi := by
    funext g l id
    simp only [verifyPhi, hbranch]
    rw [hsame]
    rfl
  have hoperand : f'.verifyOperand = f.verifyOperand := by
    funext g l blk place id x op
    simp only [verifyOperand, husable]
    rw [hsame]
    rfl
  have hexpr : f'.verifyExpr = f.verifyExpr := by
    funext g l blk place id
    simp only [verifyExpr, hoperand]
    rw [hsame]
    rfl
  have hblock : f'.verifyBlock = f.verifyBlock := by
    funext g l
    simp only [verifyBlock, hphi, hexpr]
    rw [hsame]
  have hblocks : f'.verifyBlocks = f.verifyBlocks := by
    funext g ls
    induction ls with
    | nil => rfl
    | cons l ls ih => simp only [verifyBlocks, hblock, ih]
  simp only [verifyPruned, hblocks, h]
  rw [hsame]
  rfl

section

variable (h : f.Clean L)
include h

theorem Clean.newBlock (name : String) : (f.newBlock name).2.Clean L := by
  intro l blk id e hblk hl hid
  simp only [Func.newBlock, Array.getElem?_push] at hblk
  split at hblk
  · rw [← Option.some.inj hblk] at hid
    cases hid
  · exact h l blk id e hblk hl hid

theorem Clean.add (b : Int) (x : Expr) (ty : Ty) (position : Option Position)
    (hx : ∀ br ∈ x.branches, L br.block = true) : (f.add b x ty position).2.Clean L := by
  unfold Func.add
  split
  · exact h
  split
  · exact h
  intro l blk id e hblk hl hid he br hbr
  simp only [Array.getElem?_push] at he
  split at he
  · rw [← Option.some.inj he] at hbr
    exact hx br hbr
  rename_i hne
  simp only [Array.getElem?_modify] at hblk
  split at hblk
  · rename_i heq
    subst heq
    obtain ⟨blk', hblk', rfl⟩ := Option.map_eq_some_iff.1 hblk
    refine h _ blk' id e hblk' hl ?_ he br hbr
    unfold Block.push at hid
    split_ifs at hid
    · rcases List.mem_append.1 hid with hid | hid
      · exact hid
      · exact absurd (List.mem_singleton.1 hid) hne
    · exact hid
    · exact hid
  · exact h l blk id e hblk hl hid he br hbr

theorem Clean.addIncoming (id : Ref) (source : Int) (x : Ref) (hs : L source = true) :
    (f.addIncoming id source x).Clean L := by
  unfold Func.addIncoming
  split
  · exact h
  rename_i bs hbs
  obtain ⟨n, rfl, e', he', hexpr⟩ := phi?_eq_some_iff.1 hbs
  intro l blk i e hblk hl hi he br hbr
  rw [Int.toNat_natCast, setExpr_getElem?] at he
  split at he
  · rename_i hni
    subst hni
    obtain ⟨e'', he'', rfl⟩ := Option.map_eq_some_iff.1 he
    rcases List.mem_append.1 hbr with hbr | hbr
    · refine h l blk n e' hblk hl hi he' br ?_
      rw [hexpr]
      exact hbr
    · rw [List.mem_singleton.1 hbr]
      exact hs
  · exact h l blk i e hblk hl hi he br hbr

theorem Clean.apply (c : BuildCall) (hc : ∀ s ∈ c.sources, L s = true) : (f.apply c).Clean L := by
  cases c with
  | newBlock name => exact h.newBlock name
  | add b x ty position => exact h.add b x ty position fun br hbr => hc _ (List.mem_map_of_mem hbr)
  | addIncoming id source x => exact h.addIncoming id source x (hc _ (List.mem_singleton.2 rfl))

/-- Pruning changes nothing but the note if the phis are clean. -/
theorem Clean.prune (hpos : 0 < f.blocks.size) (hp : f.prune = .ok f') (hreach : ∀ l, f'.reachable l = L l)
    (ht : f.Tabled) : f' = { f with reach := f'.reach } := by
  obtain ⟨f1, hp', hsame, hget⟩ := prune_eq hpos
  obtain rfl : f1 = f' := Except.ok.inj (hp'.symm.trans hp)
  have hentries : f1.entries = f.entries := by
    refine Array.ext_getElem? fun i => ?_
    rw [hget]
    cases he : f.entries[i]? with
    | none => rfl
    | some e =>
      rw [Option.map_some]
      split
      · rename_i hid
        obtain ⟨l, blk, hblk, hl, hmem⟩ := mem_phisOf.1 hid
        have hblk' : f.blocks[l]? = some blk := by
          rw [hsame] at hblk
          exact hblk
        obtain ⟨e', he', -, hphi⟩ := ht.phis l blk i hblk' hmem
        cases he.symm.trans he'
        have hall : liveBranches f1.reach e.expr.branches = e.expr.branches :=
          List.filter_eq_self.2 fun br hbr => (hreach _).trans
            (h l blk i e hblk' ((hreach l).symm.trans hl) hmem he br hbr)
        rw [hall]
        obtain ⟨x, t, position, k⟩ := e
        cases x with
        | phi bs => rfl
        | _ => cases hphi
      · rfl
  rw [hsame, hentries]

end

/-- A clean function that was checked before is verified as if it had not been. -/
theorem Thinned.verify_eq (h : Thinned L f b) (hL : ∀ l, b.live l = L l)
    (hnote : f.reach = #[] ∨ ∀ l, f.reachable l = L l) (hclean : f.reach = #[] ∨ f.Clean L) :
    f.verify.map Prod.snd = b.verify.map Prod.snd := by
  have hpos : 0 < b.blocks.size := h.blocks ▸ h.tabled.pos
  have hname : f.name = b.name := by rw [h.same]
  cases he : f.error with
  | some e =>
    rw [verify_eq_of_error he, verify_eq_of_error (h.error ▸ he), hname]
    rfl
  | none =>
    have hprune := h.prune_eq_prune hL
    obtain ⟨f', hp, h', hreach'⟩ := h.prune_live hL
    rw [verify_unchecked hpos (h.error ▸ he) h.unchecked (hprune ▸ hp)]
    by_cases hempty : f.reach = #[]
    · rw [verify_unchecked h.tabled.pos he hempty hp]
    · have hreach := hnote.resolve_left hempty
      have hsame := (hclean.resolve_left hempty).prune h.tabled.pos hp hreach' h.tabled
      have hverify := verifyPruned_reach hsame fun l => (hreach' l).trans (hreach l).symm
      rw [verify_checked h.tabled.pos he (by simpa using hempty), hverify]
      cases f.verifyPruned <;> rfl

/-! ## Whole sequences of calls -/

theorem thinned_self (hb : b.Tabled) (hreach : b.reach = #[]) : Thinned L b b :=
  ⟨rfl, rfl, fun _ => .inl rfl, hb, hreach⟩

theorem reach_create (name : String) (sig : Signature) : (create name sig).reach = #[] := by
  rw [create_eq]
  rfl

/-- Checks in a sequence of calls leave the function alike if they drop no branches from blocks in `L`. -/
theorem Thinned.of_perform_all (h : Thinned L f b) (calls : List Call)
    (hend : ∀ l, ((Call.building calls).foldl Func.apply b).live l = true → L l = true)
    (hspares : AtChecks (fun pre _ => (pre.foldl Func.apply b).Spares L) calls)
    (hf : calls.foldlM perform f = .ok f') : Thinned L f' ((Call.building calls).foldl Func.apply b) := by
  induction calls generalizing f b with
  | nil =>
    cases hf
    exact h
  | cons c calls ih =>
    rw [List.foldlM_cons] at hf
    obtain ⟨f1, hf1, hrest⟩ := bind_eq_ok.1 hf
    have hlive : ∀ l, b.live l = true → ((Call.building (c :: calls)).foldl Func.apply b).live l = true :=
      fun l => live_foldl _ (h.blocks ▸ h.tabled.pos)
    cases c with
    | build c =>
      cases hf1
      exact ih (h.apply c) hend hspares hrest
    | prune =>
      obtain ⟨f2, hp, h1, -⟩ := h.prune (fun l hl => hend l (hlive l hl)) hspares.1
      cases hp.symm.trans hf1
      exact ih h1 hend hspares.2 hrest
    | verify =>
      obtain ⟨⟨f2, r⟩, hv, rfl⟩ := map_eq_ok.1 hf1
      rcases verify_cases h.tabled.pos hv with rfl | hp
      · exact ih h hend hspares.2 hrest
      · obtain ⟨f3, hp', h1, -⟩ := h.prune (fun l hl => hend l (hlive l hl)) hspares.1
        cases hp.symm.trans hp'
        exact ih h1 hend hspares.2 hrest

/-- Checks in a sequence of calls are no faults if each of them finds the blocks in `L` reachable. If also
all branches that are added after a check come from blocks in `L`, the phis are clean once the reachable
blocks are noted. -/
theorem Thinned.perform_all (h : Thinned L f b) (hnote : f.reach = #[] ∨ ∀ l, f.reachable l = L l)
    (calls : List Call) (hchecks : AtChecks (fun pre _ => ∀ l, (pre.foldl Func.apply b).live l = L l) calls) :
    ∃ f', calls.foldlM perform f = .ok f' ∧ Thinned L f' ((Call.building calls).foldl Func.apply b) ∧
      (f'.reach = #[] ∨ ∀ l, f'.reachable l = L l) ∧
      (AtChecks (fun _ post => ∀ d ∈ post, ∀ s ∈ d.sources, L s = true) calls →
        (f.reach = #[] ∨ f.Clean L ∧ ∀ d ∈ Call.building calls, ∀ s ∈ d.sources, L s = true) →
        f'.reach = #[] ∨ f'.Clean L) := by
  induction calls generalizing f b with
  | nil => exact ⟨f, rfl, h, hnote, fun _ hf => hf.imp_right And.left⟩
  | cons c calls ih =>
    rw [List.foldlM_cons]
    cases c with
    | build c =>
      have hreach := (grows_apply f c).1
      obtain ⟨f', hf', h', hnote', htidy⟩ := ih (h.apply c) (by simpa only [reachable, hreach] using hnote) hchecks
      refine ⟨f', hf', h', hnote', fun hlate hf => htidy hlate ?_⟩
      exact hf.imp hreach.trans fun h => ⟨h.1.apply c (h.2 c List.mem_cons_self),
        fun d hd => h.2 d (List.mem_cons_of_mem c hd)⟩
    | prune =>
      obtain ⟨f1, hp, h1, hreach⟩ := h.prune_live hchecks.1
      obtain ⟨f', hf', h', hnote', htidy⟩ := ih h1 (.inr hreach) hchecks.2
      refine ⟨f', ?_, h', hnote', fun hlate _ =>
        htidy hlate.2 (.inr ⟨clean_of_prune h.tabled.pos hp hreach, hlate.1⟩)⟩
      rw [perform, hp]
      exact hf'
    | verify =>
      obtain ⟨f1, r, hv, h1, hnote1⟩ := h.verify hchecks.1 hnote
      obtain ⟨f', hf', h', hnote', htidy⟩ := ih h1 hnote1 hchecks.2
      refine ⟨f', ?_, h', hnote', fun hlate hf => htidy hlate.2 ?_⟩
      · rw [perform, hv]
        exact hf'
      · rcases verify_cases h.tabled.pos hv with rfl | hp
        · exact hf
        · obtain ⟨f2, hp', -, hreach⟩ := h.prune_live hchecks.1
          obtain rfl : f2 = f1 := Except.ok.inj (hp'.symm.trans hp)
          exact .inr ⟨clean_of_prune h.tabled.pos hp hreach, hlate.1⟩

/-- Checks between the calls that build a function do no harm. After checks that are no faults and drop no
branch from a block that is reachable in the end, the function compiles as if it had never been checked, to
the same program. If the blocks that are reachable at each check are those that are reachable in the end, no
check is a fault, nor is a last one. If moreover no phi gets a branch from an unreachable block after a check,
a last check also comes to the same verdict. -/
theorem checks_transparent (name : String) (sig : Signature) (calls : List Call) :
    (AtChecks (fun pre _ => (built name sig pre).Spares (built name sig (Call.building calls)).live) calls →
      ∀ f, performed name sig calls = .ok f → f.compile = (built name sig (Call.building calls)).compile) ∧
    (AtChecks (fun pre _ => ∀ l, (built name sig pre).live l = (built name sig (Call.building calls)).live l)
        calls →
      ∃ f, performed name sig calls = .ok f ∧ f.compile = (built name sig (Call.building calls)).compile ∧
        (∃ r, f.verify = .ok r) ∧
        (AtChecks (fun _ post => ∀ d ∈ post, ∀ s ∈ d.sources,
            (built name sig (Call.building calls)).live s = true) calls →
          f.verify.map Prod.snd = (built name sig (Call.building calls)).verify.map Prod.snd)) := by
  have hself : Thinned (built name sig (Call.building calls)).live (create name sig) (create name sig) :=
    thinned_self (tabled_create name sig) (reach_create name sig)
  have hcompile : ∀ {f}, Thinned (built name sig (Call.building calls)).live f
      (built name sig (Call.building calls)) → f.compile = (built name sig (Call.building calls)).compile := by
    intro f h
    rw [compile, h.prune_eq_prune fun _ => rfl]
    rfl
  refine ⟨fun hspares f hf => hcompile (hself.of_perform_all calls (fun _ => id) hspares hf), fun hchecks => ?_⟩
  obtain ⟨f, hf, h, hnote, htidy⟩ := hself.perform_all (.inl (reach_create name sig)) calls hchecks
  obtain ⟨f', r, hv, -, -⟩ := h.verify (fun _ => rfl) hnote
  exact ⟨f, hf, hcompile h, ⟨_, hv⟩, fun hlate =>
    h.verify_eq (fun _ => rfl) hnote (htidy hlate (.inl (reach_create name sig)))⟩

theorem live_congr
    (h : (Graph.explore f.blocks.size f.succsOf).seen = (Graph.explore f'.blocks.size f'.succsOf).seen) :
    f.live = f'.live := by
  funext l
  rw [live, live, h]

/-- A loop that is checked before its last block ends, and again before the function does. The phi gets
its branch from the loop after the first check. -/
def checkedLoop : List Call :=
  [.build (.newBlock "loop"), .build (.newBlock "back"), .build (.newBlock "exit"),
    .build (.add 0 (.jump 1) .void none), .build (.add 1 (.phi [⟨0, 0⟩]) .bool none),
    .build (.add 1 (.branch 2 2 3) .void none), .verify, .build (.add 2 (.jump 1) .void none),
    .build (.addIncoming 2 2 2), .prune, .build (.add 3 (.ret (some 2)) .void none)]

/-- A function that is pruned before a branch leads to its last block. -/
def lateJump : List Call :=
  [.build (.newBlock "next"), .prune, .build (.add 0 (.jump 1) .void none), .build (.add 1 (.ret none) .void none)]

theorem checks_transparent_checkedLoop : (∃ f, performed "f" ⟨[], .void⟩ lateJump = .ok f ∧
      f.compile = (built "f" ⟨[], .void⟩ (Call.building lateJump)).compile) ∧
    ∃ f g, performed "loop" ⟨[.bool], .bool⟩ checkedLoop = .ok f ∧
      f.compile = (built "loop" ⟨[.bool], .bool⟩ (Call.building checkedLoop)).compile ∧
      f.verify.map Prod.snd =
        (built "loop" ⟨[.bool], .bool⟩ (Call.building checkedLoop)).verify.map Prod.snd ∧
      f.verify.map Prod.snd = .ok (.ok g) := by
  obtain ⟨f, hf, hcompile, -, hverify⟩ := (checks_transparent "loop" ⟨[.bool], .bool⟩ checkedLoop).2
    ⟨congrFun (live_congr (by decide +kernel)), congrFun (live_congr (by decide +kernel)), trivial⟩
  have hverdict := hverify ⟨by decide +kernel, by decide +kernel, trivial⟩
  obtain ⟨g, hg⟩ : ∃ g, (built "loop" ⟨[.bool], .bool⟩ (Call.building checkedLoop)).verify.map Prod.snd =
      .ok (.ok g) := ⟨_, rfl⟩
  refine ⟨⟨_, rfl, (checks_transparent "f" ⟨[], .void⟩ lateJump).1 ⟨?_, trivial⟩ _ rfl⟩,
    f, g, hf, hcompile, hverdict, hverdict.trans hg⟩
  rintro (_ | _ | l) blk id e hblk - hid
  · cases hblk
    cases hid
  · cases hblk
    cases hid
  · cases hblk

/-- A block that is pruned before a branch leads to it, and does not end. -/
def earlyPrune : List Call :=
  [.build (.newBlock "next"), .prune, .build (.add 0 (.jump 1) .void none)]

/-- A loop whose phi is pruned before its second branch can be reached. -/
def earlyPrunedLoop : List Call :=
  [.build (.newBlock "loop"), .build (.newBlock "back"), .build (.newBlock "exit"),
    .build (.add 0 (.jump 1) .void none), .build (.add 1 (.phi [⟨0, 0⟩, ⟨2, 0⟩]) .bool none), .prune,
    .build (.add 1 (.branch 2 2 3) .void none), .build (.add 2 (.jump 1) .void none),
    .build (.add 3 (.ret (some 2)) .void none)]

/-- Checks that find other blocks reachable than the last ones are observable: a last check becomes a
fault instead of a refusal, and a function that passes it is refused, then and by the compiler. -/
theorem early_checks_observable : (∃ f n, performed "f" ⟨[], .void⟩ earlyPrune = .ok f ∧
      f.verify = .error (.indexOutOfRange (-1) n)) ∧
    (∃ f i, (built "f" ⟨[], .void⟩ (Call.building earlyPrune)).verify = .ok (f, .error (.malformed i)) ∧
      i.defect = .notTerminated) ∧
    (∃ f, performed "f" ⟨[.bool], .bool⟩ earlyPrunedLoop = .ok f ∧
      (∃ f' i, f.verify = .ok (f', .error (.malformed i)) ∧ i.defect = .phiCount 1 2) ∧
      ∃ f' i, f.compile = .ok (f', .error (.verify (.malformed i))) ∧ i.defect = .phiCount 1 2) ∧
    ∃ f g, (built "f" ⟨[.bool], .bool⟩ (Call.building earlyPrunedLoop)).verify = .ok (f, .ok g) :=
  ⟨⟨_, _, rfl, rfl⟩, ⟨_, _, rfl, rfl⟩, ⟨_, rfl, ⟨_, _, rfl, rfl⟩, ⟨_, _, rfl, rfl⟩⟩, ⟨_, _, rfl⟩⟩

end Func

end Codesmith.Ssa
