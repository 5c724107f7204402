import Codesmith.Proofs.Ssa.Accepted
import Codesmith.Proofs.Ssa.Compile

/-!
# Removing trivial phis keeps runs

A function is executed as it is and without its trivial phis, block by block side by side. What was not
replaced holds the same word on both sides. What was replaced is not there on the second side; on the
first it holds, wherever its block dominates the current one, the word of the value that took its place.
So both sides read the same words everywhere, and store the same words in the same order.
-/

namespace Codesmith.Ssa

variable {e : Entry} {c : Command} {cs : List Command}

/-! ## Effects -/

/-- A word that was stored, and where. -/
structure Effect where
  kind : Kind
  place : Word
  value : Word
  deriving DecidableEq, Repr

namespace Command

/-- The command with the registers that it reads renamed. -/
def rename (σ : Ref → Ref) : Command → Command
  | compute out value => compute out (value.rename σ)
  | store k p x => store k (σ p) (σ x)

def effect? (r : Registers) : Command → Option Effect
  | compute .. => none
  | store k p x => some ⟨k, r.read p, r.read x⟩

end Command

/-- What commands store in order, up to a fault. -/
def effectsOf : List Command → Registers → Memory → List Effect
  | [], _, _ => []
  | c :: cs, r, m =>
    match c.exec r m with
    | .error _ => []
    | .ok (r', m') => (c.effect? r).toList ++ effectsOf cs r' m'

namespace Program

/-- What at most so many blocks store in order from a state on. -/
def effectsFrom (p : Program) : Nat → State → List Effect
  | 0, _ => []
  | fuel + 1, s =>
    ((fetch? p.blocks s.block).map fun b => effectsOf b.code s.regs s.memory).getD [] ++
      match p.step s with
      | .next s' => p.effectsFrom fuel s'
      | _ => []

/-- What at most so many blocks store in order, with the given arguments and memory. -/
def effects (p : Program) (fuel : Nat) (args : Array Word) (m : Memory) : List Effect :=
  match placeArgs args 0 p.args (Array.replicate p.regs Word.zero) with
  | .error _ => []
  | .ok r => p.effectsFrom fuel ⟨(Graph.entry : Int), r, m⟩

end Program

/-! ## What is replaced -/

namespace Func

variable {f f' : Func} {g : Graph} {σ : Ref → Ref}
variable {id : Nat} {x : Ref} {l p t : Label} {b : Block} {r : Registers}

theorem home_natCast (he : f.entries[id]? = some e) : f.home id = some e.block := by
  rw [home, entryOf?, fetch?_natCast, he]
  rfl

theorem lt_of_home {k : Label} (h : f.home x = some k) : 0 ≤ x ∧ x < f.entries.size := by
  obtain ⟨e, he, -⟩ := Option.map_eq_some_iff.1 h
  exact fetch?_isSome_iff.1 (Option.isSome_iff_exists.2 ⟨e, he⟩)

theorem Accepted.exists_block (h : f.Accepted g) (hl : Graph.Reaches f.succsOf l) :
    ∃ b, f.blocks[l]? = some b := by
  have hlt : l < f.blocks.size := h.graph.order.lt l ((h.graph.order.mem l).2 hl)
  exact ⟨_, Array.getElem?_eq_getElem hlt⟩

/-- A phi has a branch from each predecessor of its block. -/
theorem Accepted.exists_branch (h : f.Accepted g) (hb : f.blocks[l]? = some b)
    (hl : Graph.Reaches f.succsOf l) (hid : id ∈ b.phis) (hp : Graph.Reaches f.succsOf p)
    (he : Graph.Edge f.succsOf p l) :
    ∃ br ∈ f.branches id, br.block = p ∧ f.Met br.value p ∧ f.tyOf br.value = f.tyOf id := by
  have hone := h.single l b id p hb hl hid hp he
  obtain ⟨br, hbr, hblock⟩ := List.countP_pos_iff.1 (hone ▸ Nat.one_pos)
  have hblock : br.block = p := by simpa using hblock
  obtain ⟨p', hp', -, hmet, hty⟩ := h.branch l b id br hb hl hid hbr
  obtain rfl : p = p' := Int.natCast_inj.1 (hblock.symm.trans hp')
  exact ⟨br, hbr, hblock, hmet, hty⟩

/-- A replacement of phis. All branches of a replaced phi lead to where the phi leads. -/
structure Substitutes (f : Func) (σ : Ref → Ref) : Prop where
  merges : Graph.Merges f.succsOf f.home f.tyOf σ
  phi : ∀ x, σ x ≠ x → ∃ (id : Nat) (l : Label) (b : Block), x = id ∧ f.blocks[l]? = some b ∧
    id ∈ b.phis ∧ ∀ br ∈ f.branches id, σ br.value = σ x

section

variable (h : f.Accepted g)
include h

/-- The phis of an accepted function are expressions, and they merge expressions. -/
theorem Accepted.searched : (∀ id ∈ f.phisOf fun l => f.reachable l, id < f.entries.size) ∧
    ∀ id ∈ f.phisOf fun l => f.reachable l, ∀ br ∈ f.branches id, br.value ≠ noRef := by
  refine ⟨fun id hid => ?_, fun id hid br hbr hno => ?_⟩
  · obtain ⟨l, b, hb, -, hmem⟩ := mem_phisOf.1 hid
    obtain ⟨e, he, -⟩ := h.tabled.phis l b id hb hmem
    exact (Array.getElem?_eq_some_iff.1 he).1
  · obtain ⟨l, b, hb, hl, hmem⟩ := mem_phisOf.1 hid
    obtain ⟨p, -, -, ⟨k, hk, -⟩, -⟩ := h.branch l b id br hb ((h.reach l).1 hl) hmem hbr
    have := (lt_of_home hk).1
    rw [hno] at this
    exact absurd this (by decide)

/-- What is replaced in an accepted function is a phi that merges something, and everything that it merges
leads to where the phi leads. -/
theorem Accepted.merged : f.trivialPhis.Ends ∧ ∀ x, f.trivialPhis.apply x ≠ x →
    ∃ (id : Nat) (l : Label) (b : Block), x = id ∧ f.blocks[l]? = some b ∧ id ∈ b.phis ∧
      Graph.Reaches f.succsOf l ∧ f.branches id ≠ [] ∧
      ∀ br ∈ f.branches id, f.trivialPhis.apply br.value = f.trivialPhis.apply x := by
  obtain ⟨hlt, hvals⟩ := h.searched
  obtain ⟨w, hw, hsound⟩ := sound_loop hlt hvals _ sound_start
  change f.trivialPhis = w.replaced at hw
  rw [hw]
  refine ⟨hsound.ends, fun x hx => ?_⟩
  obtain ⟨q, rfl, hq, hne, hall⟩ := hsound.merged x (mt hsound.ends.apply_eq_self_iff.2 hx)
  obtain ⟨l, b, hb, hl, hid⟩ := mem_phisOf.1 hq
  exact ⟨q, l, b, rfl, hb, hid, (h.reach l).1 hl, hne, hall⟩

/-- The trivial phis of an accepted function are merged definitions, unless one of them stands in the
entry: control comes there first without an edge. -/
theorem Accepted.substitutes
    (hentry : ∀ b, f.blocks[Graph.entry]? = some b → ∀ id ∈ b.phis, f.trivialPhis.contains id = false) :
    f.Substitutes f.trivialPhis.apply := by
  obtain ⟨hends, hmerged⟩ := h.merged
  refine ⟨⟨fun x => hends.apply_eq_self_iff.2 (hends.value?_apply x), fun x hx => ?_⟩, fun x hx => ?_⟩
  · obtain ⟨q, l, b, rfl, hb, hid, hl, -, hall⟩ := hmerged x hx
    obtain ⟨e, he, hblock, -⟩ := h.tabled.phis l b q hb hid
    refine ⟨l, (home_natCast he).trans (congrArg some hblock), hl, ?_, fun p hp hedge => ?_⟩
    · rintro rfl
      refine hx (hends.apply_eq_self_iff.2 ?_)
      simpa [Replaced.contains] using hentry b hb q hid
    · obtain ⟨br, hbr, -, ⟨k, hk, hdom⟩, hty⟩ := h.exists_branch hb hl hid hp hedge
      exact ⟨br.value, k, hk, hdom, hall br hbr, hty⟩
  · obtain ⟨q, l, b, rfl, hb, hid, -, -, hall⟩ := hmerged x hx
    exact ⟨q, l, b, rfl, hb, hid, hall⟩

/-- Nothing is merged in an entry to which no edge leads. -/
theorem Accepted.trivialPhis (hentry : ∀ l, Graph.Reaches f.succsOf l → ¬ Graph.Edge f.succsOf l Graph.entry) :
    f.trivialPhis.Ends ∧ f.Substitutes f.trivialPhis.apply := by
  obtain ⟨hends, hmerged⟩ := h.merged
  refine ⟨hends, h.substitutes fun b hb id hid => ?_⟩
  by_contra hrep
  have hx : f.trivialPhis.apply id ≠ id := fun he => hrep (by
    rw [Replaced.contains, hends.apply_eq_self_iff.1 he]
    rfl)
  obtain ⟨q, l, b', hq, hb', hid', hl, hne, -⟩ := hmerged id hx
  obtain rfl := Int.natCast_inj.1 hq
  obtain ⟨e, he, hblock, -⟩ := h.tabled.phis _ b id hb hid
  obtain ⟨e', he', hblock', -⟩ := h.tabled.phis l b' id hb' hid'
  cases he.symm.trans he'
  obtain rfl : l = Graph.entry := hblock'.symm.trans hblock
  have hlen := h.count _ b' id hb' hl hid'
  cases hpreds : g.preds.getD Graph.entry [] with
  | nil => exact hne (List.length_eq_zero_iff.1 (hlen.trans (by rw [hpreds]; rfl)))
  | cons p ps =>
    have hp := (h.graph.mem_preds h.tabled.pos p).1 (hpreds ▸ List.mem_cons_self)
    exact hentry p hp.1 hp.2

end

/-- What stands in the code of a block is not replaced. -/
theorem Substitutes.code (hσ : f.Substitutes σ) (ht : f.Tabled) (hb : f.blocks[l]? = some b)
    (hid : id ∈ b.code) : σ id = id := by
  by_contra he
  obtain ⟨q, k, b', hq, hb', hmem, -⟩ := hσ.phi id he
  obtain rfl := Int.natCast_inj.1 hq
  obtain ⟨e, he, -, hphi⟩ := ht.phis k b' id hb' hmem
  obtain ⟨e', he', -, hcode⟩ := ht.code l b id hb hid
  cases he.symm.trans he'
  exact absurd hphi (by rw [hcode]; exact Bool.false_ne_true)

/-- What takes the place of a definition was met wherever the definition was. -/
theorem Met.replaced (hm : Graph.Merges f.succsOf f.home f.tyOf σ) (h : f.Met x l) : f.Met (σ x) l := by
  by_cases he : σ x = x
  · rwa [he]
  · obtain ⟨k, hk, hdom⟩ := h
    obtain ⟨k', q, hk', hq, -, hq', -⟩ := hm.dom he
    cases hk.symm.trans hk'
    exact ⟨q, hq, hq'.trans hdom⟩

/-! ## The function without them -/

theorem operands_mapOperands (σ : Ref → Ref) (x : Expr) : (x.mapOperands σ).operands = x.operands.map σ := by
  cases x with
  | ret y => cases y <;> rfl
  | phi bs => simp [Expr.mapOperands, Expr.operands, Function.comp_def]
  | _ => rfl

section Dropped

variable {s : Replaced} (hd : f.Drops s f') (h : f.Accepted g)
  (hm : Graph.Merges f.succsOf f.home f.tyOf s.apply)
variable {l : Label} {b : Block} {id : Nat}
include hd

theorem Drops.home (x : Ref) : f'.home x = f.home x := by
  rw [Func.home, Func.home, hd.entries, Option.map_map]
  congr 1
  funext e
  simp only [Function.comp]
  split <;> rfl

theorem Drops.met {x : Ref} : f'.Met x l ↔ f.Met x l := by
  rw [Met, Met, hd.home, hd.succsOf]

theorem Drops.size : f'.blocks.size = f.blocks.size := by
  rw [hd.blocks, dropPhis, Array.size_mapIdx]

theorem Drops.size_entries : f'.entries.size = f.entries.size := by
  refine size_eq_of_isSome fun i => ?_
  have := congrArg Option.isSome (hd.entries i)
  rwa [Option.isSome_map] at this

include h

section

variable (hl : Graph.Reaches f.succsOf l)
include hl

/-- A reached block keeps the phis that were not replaced. -/
theorem Drops.getElem?_blocks (hb : f.blocks[l]? = some b) :
    f'.blocks[l]? = some { b with phis := b.phis.filter fun id => !s.contains id } := by
  rw [hd.blocks, dropPhis_getElem?, hb, Option.map_some, if_pos ((h.reach l).2 hl)]

/-- The expressions of reached blocks have their operands replaced. -/
theorem Drops.getElem?_entries (hb : f'.blocks[l]? = some b)
    (hid : id ∈ b.phis ∨ id ∈ b.code ∨ b.term = some id) :
    f'.entries[id]? = f.entries[id]?.map fun e => { e with expr := e.expr.mapOperands s.apply } := by
  have hmem : id ∈ f'.reachableIds :=
    mem_reachableIds.2 ⟨l, b, hb, (hd.reachable l).trans ((h.reach l).2 hl), hid⟩
  have := hd.entries id
  simpa only [Func.entryOf?, fetch?_natCast, Int.toNat_natCast, if_pos hmem] using this

theorem Drops.branches (hb : f'.blocks[l]? = some b) (hid : id ∈ b.phis) :
    f'.branches id = (f.branches id).map fun br => { br with value := s.apply br.value } := by
  have hget := hd.getElem?_entries h hl hb (.inl hid)
  cases he : f.entries[id]? with
  | none =>
    rw [he] at hget
    rw [Func.branches, Func.branches, phi?_eq, phi?_eq, entryOf?, entryOf?, fetch?_natCast, fetch?_natCast,
      he, hget]
    rfl
  | some e =>
    rw [he] at hget
    rw [branches_eq he, branches_eq hget]
    obtain ⟨x, t, position, k⟩ := e
    cases x with
    | ret y => cases y <;> rfl
    | _ => rfl

end

include hm

/-- The function without its trivial phis is in order again. -/
theorem Drops.accepted (ht : f'.Tabled) : f'.Accepted g where
  tabled := ht
  graph := by rw [hd.size, hd.succsOf]; exact h.graph
  range := by rw [hd.size, hd.succsOf]; exact h.range
  reach l := by rw [hd.reachable, hd.succsOf]; exact h.reach l
  count l b id hb hl hid := by
    rw [hd.succsOf] at hl
    obtain ⟨b', hb'⟩ := h.exists_block hl
    rw [hd.branches h hl hb hid, List.length_map]
    rw [hd.getElem?_blocks h hl hb'] at hb
    cases hb
    exact h.count l b' id hb' hl (List.mem_of_mem_filter hid)
  single l b id p hb hl hid hp he := by
    rw [hd.succsOf] at hl hp he
    obtain ⟨b', hb'⟩ := h.exists_block hl
    rw [hd.branches h hl hb hid, List.countP_map]
    rw [hd.getElem?_blocks h hl hb'] at hb
    cases hb
    exact h.single l b' id p hb' hl (List.mem_of_mem_filter hid) hp he
  branch l b id br hb hl hid hbr := by
    rw [hd.succsOf] at hl ⊢
    obtain ⟨b', hb'⟩ := h.exists_block hl
    rw [hd.branches h hl hb hid] at hbr
    obtain ⟨br', hbr', rfl⟩ := List.mem_map.1 hbr
    rw [hd.getElem?_blocks h hl hb'] at hb
    cases hb
    obtain ⟨p, hp, hreach, hmet, hty⟩ := h.branch l b' id br' hb' hl (List.mem_of_mem_filter hid) hbr'
    refine ⟨p, hp, hreach, hd.met.2 (hmet.replaced hm), ?_⟩
    rw [hd.tyOf, hd.tyOf, hm.ty_eq, hty]
  operand l b id e x hb hl hid he hx := by
    rw [hd.succsOf] at hl
    obtain ⟨b', hb'⟩ := h.exists_block hl
    rw [hd.getElem?_entries h hl hb (.inr hid)] at he
    obtain ⟨e', he', rfl⟩ := Option.map_eq_some_iff.1 he
    rw [hd.getElem?_blocks h hl hb'] at hb
    cases hb
    rw [operands_mapOperands] at hx
    obtain ⟨y, hy, rfl⟩ := List.mem_map.1 hx
    exact hd.met.2 ((h.operand l b' id e' y hb' hl hid he' hy).replaced hm)

end Dropped

/-! ## Taking an edge -/

theorem mem_copies (hb : f.blocks[t]? = some b) {c : Nat × Ref} :
    c ∈ (f.edge l t).copies ↔ c.1 ∈ b.phis ∧ c.2 ≠ c.1 ∧
      ∃ br ∈ f.branches c.1, br.block = l ∧ br.value = c.2 := by
  obtain ⟨id, x⟩ := c
  simp only [edge, fetch?_natCast, hb, Option.map_some, Option.getD_some, List.mem_flatMap,
    List.mem_filterMap]
  constructor
  · rintro ⟨id', hid, br, hbr, hcopy⟩
    split_ifs at hcopy with hcond
    cases hcopy
    exact ⟨hid, hcond.2, br, hbr, hcond.1, rfl⟩
  · rintro ⟨hid, hne, br, hbr, hblock, rfl⟩
    exact ⟨id, hid, br, hbr, if_pos ⟨hblock, hne⟩⟩

/-- A phi has one branch from a predecessor. -/
theorem Accepted.branch_unique (h : f.Accepted g) (hb : f.blocks[l]? = some b)
    (hl : Graph.Reaches f.succsOf l) (hid : id ∈ b.phis) (hp : Graph.Reaches f.succsOf p)
    (he : Graph.Edge f.succsOf p l) {br br' : PhiBranch} (hbr : br ∈ f.branches id)
    (hbr' : br' ∈ f.branches id) (hblock : br.block = p) (hblock' : br'.block = p) : br = br' := by
  have hone := h.single l b id p hb hl hid hp he
  rw [List.countP_eq_length_filter] at hone
  obtain ⟨a, ha⟩ := List.length_eq_one_iff.1 hone
  have hmem : ∀ c ∈ f.branches id, c.block = p → c = a := fun c hc hcp =>
    List.mem_singleton.1 (ha ▸ List.mem_filter.2 ⟨hc, by simpa using hcp⟩)
  rw [hmem br hbr hblock, hmem br' hbr' hblock']

section

variable (h : f.Accepted g) (hl : Graph.Reaches f.succsOf l) (he : Graph.Edge f.succsOf l t)
  (hb : f.blocks[t]? = some b)
include h hl he hb

theorem Accepted.nodup_copies : ((f.edge l t).copies.map Prod.fst).Nodup := by
  simp only [edge, fetch?_natCast, hb, Option.map_some, Option.getD_some, List.map_flatMap]
  rw [List.nodup_flatMap]
  refine ⟨fun id hid => ?_, (h.tabled.nodup t b hb).imp fun {i j} hne => ?_⟩
  · -- All copies to a phi come from its one branch.
    have hone := h.single t b id l hb (hl.step he) hid hl he
    have hle : ((f.branches id).filterMap fun br => if br.block = (l : Int) ∧ br.value ≠ (id : Int)
        then some (id, br.value) else none).length ≤ 1 := by
      rw [List.length_filterMap_eq_countP, ← hone]
      refine List.countP_mono_left fun br _ hbr => ?_
      split_ifs at hbr with hcond
      · simpa using hcond.1
      · cases hbr
    rw [← List.length_map (f := Prod.fst)] at hle
    revert hle
    rcases List.map Prod.fst _ with _ | ⟨x, _ | ⟨y, ys⟩⟩
    · exact fun _ => List.nodup_nil
    · exact fun _ => List.nodup_singleton x
    · exact fun hle => absurd hle (by simp)
  · rw [Function.onFun, List.disjoint_left]
    intro x hx hy
    obtain ⟨⟨i', v⟩, hi, rfl⟩ := List.mem_map.1 hx
    obtain ⟨⟨j', w⟩, hj, heq⟩ := List.mem_map.1 hy
    obtain ⟨br, -, hbr⟩ := List.mem_filterMap.1 hi
    obtain ⟨br', -, hbr'⟩ := List.mem_filterMap.1 hj
    split_ifs at hbr hbr'
    simp only [Option.some.injEq, Prod.mk.injEq] at hbr hbr' heq
    exact hne (hbr.1.trans (heq.symm.trans hbr'.1.symm))

/-- Taking an edge gives each phi the value from its branch and keeps all else. -/
theorem Accepted.take_edge (hr : r.size = f.entries.size) :
    ∃ r', (f.edge l t).take r = .ok r' ∧ r'.size = f.entries.size ∧
      (∀ id ∈ b.phis, ∀ br ∈ f.branches id, br.block = l → r'.read id = r.read br.value) ∧
      ∀ x : Ref, (∀ id ∈ b.phis, x ≠ (id : Int)) → r'.read x = r.read x := by
  have ht := hl.step he
  obtain ⟨r', hok, hsize, hcopy, hkeep⟩ := Edge.take_ok (e := f.edge l t) (r := r) (fun c hc => by
    obtain ⟨hid, -, br, hbr, -, hval⟩ := (mem_copies hb).1 hc
    obtain ⟨e, he', -⟩ := h.tabled.phis t b c.1 hb hid
    obtain ⟨p, -, -, ⟨k, hk, -⟩, -⟩ := h.branch t b c.1 br hb ht hid hbr
    rw [hr, ← hval]
    exact ⟨(Array.getElem?_eq_some_iff.1 he').1, lt_of_home hk⟩) (h.nodup_copies hl he hb)
  refine ⟨r', hok, hsize.trans hr, fun id hid br hbr hblock => ?_, fun x hx => hkeep x fun c hc =>
    hx c.1 ((mem_copies hb).1 hc).1⟩
  by_cases hself : br.value = id
  · -- The phi keeps its value: no copy writes it.
    rw [hself]
    refine hkeep id fun c hc hidc => ?_
    obtain ⟨hid', hne, br', hbr', hblock', hval⟩ := (mem_copies hb).1 hc
    rw [← Int.natCast_inj.1 hidc] at hbr' hne
    rw [← h.branch_unique hb ht hid hl he hbr hbr' hblock hblock', hself] at hval
    exact hne hval.symm
  · exact hcopy (id, br.value) ((mem_copies hb).2 ⟨hid, hself, br, hbr, hblock, rfl⟩)

end

/-! ## Side by side -/

/-- The registers of the function as it is and without the replaced phis, in a block. What was not
replaced holds the same word. What takes the place of a definition that was met holds its word. -/
structure Agree (f : Func) (σ : Ref → Ref) (l : Label) (r r' : Registers) : Prop where
  size : r.size = f.entries.size
  size' : r'.size = f.entries.size
  kept : ∀ x, σ x = x → r'.read x = r.read x
  stands : ∀ x, f.Met x l → r.read (σ x) = r.read x

section Agree

variable {l : Label} {r r' : Registers} (hm : Graph.Merges f.succsOf f.home f.tyOf σ)
variable {x : Ref}
include hm

section

variable (h : Agree f σ l r r')
include h

theorem Agree.read (hx : f.Met x l) : r'.read (σ x) = r.read x :=
  (h.kept (σ x) (hm.idem x)).trans (h.stands x hx)

theorem Agree.fetch (hx : f.Met x l) :
    Codesmith.fetch r x = .ok (r.read x) ∧ Codesmith.fetch r' (σ x) = .ok (r.read x) := by
  obtain ⟨k, hk, -⟩ := id hx
  obtain ⟨q, hq, -⟩ := hx.replaced hm
  obtain ⟨h0, h1⟩ := lt_of_home hk
  obtain ⟨h0', h1'⟩ := lt_of_home hq
  rw [Registers.fetch_eq_read h0 (h.size ▸ h1), Registers.fetch_eq_read h0' (h.size' ▸ h1'), h.read hm hx]
  exact ⟨rfl, rfl⟩

/-- A word that is written on both sides to what is defined in the block. -/
theorem Agree.write {n : Nat} (hhome : f.home n = some l) (hfix : σ n = n) (w : Word) :
    ∃ r1 r1', Registers.write r n w = .ok r1 ∧ Registers.write r' n w = .ok r1' ∧ Agree f σ l r1 r1' := by
  have hlt : n < f.entries.size := Int.ofNat_lt.1 (lt_of_home hhome).2
  refine ⟨_, _, write_natCast r (h.size ▸ hlt) w, write_natCast r' (h.size' ▸ hlt) w,
    by rw [Array.size_setIfInBounds, h.size], by rw [Array.size_setIfInBounds, h.size'], fun x hx => ?_,
    fun x hx => ?_⟩
  · rw [Registers.read_set (h.size' ▸ hlt), Registers.read_set (h.size ▸ hlt), Function.update_apply,
      Function.update_apply, h.kept x hx]
  · by_cases he : σ x = x
    · rw [he]
    · -- Neither a replaced phi nor what takes its place is defined in the code of the block.
      obtain ⟨k, hk, hdom⟩ := id hx
      obtain ⟨q, hq, -⟩ := hx.replaced hm
      have hne : σ x ≠ n := by
        rintro heq
        rw [heq, hhome] at hq
        exact (hm.apart he hk hdom (heq ▸ hhome)).1 rfl
      have hne' : x ≠ n := by
        rintro rfl
        exact he hfix
      rw [Registers.read_set (h.size ▸ hlt), Function.update_of_ne hne, Function.update_of_ne hne',
        h.stands x hx]

end

/-- A command of a block reads what was met and writes what the block defines. -/
structure Fits (f : Func) (σ : Ref → Ref) (l : Label) (c : Command) : Prop where
  reads : ∀ x ∈ c.reads, f.Met x l
  out : ∀ n, c.out? = some n → f.home n = some l ∧ σ n = n

/-- A command does the same on both sides. -/
theorem Agree.exec (h : Agree f σ l r r') (hc : Fits f σ l c) (m : Memory) :
    (c.rename σ).effect? r' = c.effect? r ∧
      ((∃ e, c.exec r m = .error e ∧ (c.rename σ).exec r' m = .error e) ∨
        ∃ r1 r1' m1, c.exec r m = .ok (r1, m1) ∧ (c.rename σ).exec r' m = .ok (r1', m1) ∧
          Agree f σ l r1 r1') := by
  cases c with
  | compute out value =>
    refine ⟨rfl, ?_⟩
    have heval : value.eval r m = value.value r.read m :=
      Compute.eval_eq_value m fun x hx => (h.fetch hm (hc.reads x hx)).1
    have heval' : (value.rename σ).eval r' m = value.value r.read m := by
      rw [Compute.eval_eq_value (v := r'.read) m fun y hy => ?_]
      · exact Compute.value_rename m fun x hx => h.read hm (hc.reads x hx)
      · rw [Compute.reads_rename] at hy
        obtain ⟨x, hx, rfl⟩ := List.mem_map.1 hy
        rw [(h.fetch hm (hc.reads x hx)).2, h.read hm (hc.reads x hx)]
    obtain ⟨hhome, hfix⟩ := hc.out out rfl
    simp only [Command.rename, Command.exec, heval, heval']
    cases value.value r.read m with
    | error e => exact .inl ⟨_, rfl, rfl⟩
    | ok w =>
      obtain ⟨r1, r1', hw, hw', hagree⟩ := h.write hm hhome hfix w
      simp only [hw, hw']
      exact .inr ⟨r1, r1', m, rfl, rfl, hagree⟩
  | store k p x =>
    have hp := hc.reads p (by simp [Command.reads])
    have hx := hc.reads x (by simp [Command.reads])
    refine ⟨by simp only [Command.rename, Command.effect?, h.read hm hp, h.read hm hx], ?_⟩
    simp only [Command.rename, Command.exec, storeFrom, (h.fetch hm hp).1, (h.fetch hm hp).2,
      (h.fetch hm hx).1, (h.fetch hm hx).2]
    cases m.storeFault? k (r.read p) with
    | some e => exact .inl ⟨_, rfl, rfl⟩
    | none => exact .inr ⟨r, r', _, rfl, rfl, h⟩

/-- The commands of a block do the same on both sides, in the same order. -/
theorem Agree.execAll (h : Agree f σ l r r') (hcs : ∀ c ∈ cs, Fits f σ l c)
    (m : Memory) : effectsOf (cs.map (Command.rename σ)) r' m = effectsOf cs r m ∧
      ((∃ e, execAll cs r m = .error e ∧ execAll (cs.map (Command.rename σ)) r' m = .error e) ∨
        ∃ r1 r1' m1, Ssa.execAll cs r m = .ok (r1, m1) ∧
          Ssa.execAll (cs.map (Command.rename σ)) r' m = .ok (r1', m1) ∧ Agree f σ l r1 r1') := by
  induction cs generalizing r r' m with
  | nil => exact ⟨rfl, .inr ⟨r, r', m, rfl, rfl, h⟩⟩
  | cons c cs ih =>
    obtain ⟨heffect, hexec⟩ := h.exec hm (hcs c List.mem_cons_self) m
    simp only [List.map_cons, effectsOf, Ssa.execAll, heffect]
    rcases hexec with ⟨e, he, he'⟩ | ⟨r1, r1', m1, hok, hok', hagree⟩
    · simp only [he, he']
      exact ⟨trivial, .inl ⟨e, rfl, rfl⟩⟩
    · simp only [hok, hok']
      obtain ⟨heffects, hrest⟩ := ih hagree (fun c' hc' => hcs c' (List.mem_cons_of_mem c hc')) m1
      exact ⟨by rw [heffects], hrest⟩

end Agree

section Steps

variable {s : Replaced} {l t : Label} {r r' : Registers} (hd : f.Drops s f') (h : f.Accepted g)
  (h' : f'.Accepted g) (hends : s.Ends) (hσ : f.Substitutes s.apply)
include hd h h' hends hσ

/-- Both sides agree after an edge. -/
theorem Agree.take (ha : Agree f s.apply l r r') (hl : Graph.Reaches f.succsOf l)
    (he : Graph.Edge f.succsOf l t) : ∃ r1 r1', (f.edge l t).take r = .ok r1 ∧
      (f'.edge l t).take r' = .ok r1' ∧ Agree f s.apply t r1 r1' := by
  have ht := hl.step he
  obtain ⟨b, hb⟩ := h.exists_block ht
  have hb' := hd.getElem?_blocks h ht hb
  obtain ⟨r1, hok, hsize, hphi, hkeep⟩ := h.take_edge hl he hb ha.size
  obtain ⟨r1', hok', hsize', hphi', hkeep'⟩ := h'.take_edge (r := r') (hd.succsOf ▸ hl)
    (hd.succsOf ▸ he) hb' (ha.size'.trans hd.size_entries.symm)
  have hhome : ∀ id ∈ b.phis, f.home id = some t := fun id hid => by
    obtain ⟨e, he, hblock, -⟩ := h.tabled.phis t b id hb hid
    rw [home_natCast he, hblock]
  refine ⟨r1, r1', hok, hok', hsize, hsize'.trans hd.size_entries, fun x hx => ?_, fun x hx => ?_⟩
  · by_cases hmem : ∃ id ∈ b.phis, x = (id : Int)
    · -- A phi that stays gets what takes the place of the same value.
      obtain ⟨id, hid, rfl⟩ := hmem
      obtain ⟨br, hbr, hblock, hmet, -⟩ := h.exists_branch hb ht hid hl he
      have hid' : id ∈ b.phis.filter fun id => !s.contains id := by
        refine List.mem_filter.2 ⟨hid, ?_⟩
        rw [Replaced.contains, hends.apply_eq_self_iff.1 hx]
        rfl
      have hbr' : { br with value := s.apply br.value } ∈ f'.branches id := by
        rw [hd.branches h ht hb' hid']
        exact List.mem_map_of_mem hbr
      rw [hphi id hid br hbr hblock, hphi' id hid' _ hbr' hblock, ha.read hσ.merges hmet]
    · have hnot : ∀ id ∈ b.phis, x ≠ (id : Int) := fun id hid heq => hmem ⟨id, hid, heq⟩
      rw [hkeep x hnot, hkeep' x fun id hid => hnot id (List.mem_of_mem_filter hid), ha.kept x hx]
  · by_cases hx' : s.apply x = x
    · rw [hx']
    · obtain ⟨k, hk, hdom⟩ := hx
      obtain ⟨q, hq, -⟩ := Met.replaced hσ.merges ⟨k, hk, hdom⟩
      have hsame : r1.read (s.apply x) = r.read (s.apply x) := hkeep _ fun id hid heq => by
        have := hhome id hid
        rw [← heq, hq] at this
        exact (hσ.merges.apart hx' hk hdom hq).1 (Option.some.inj this)
      by_cases hkt : k = t
      · -- The replaced phi got a value that leads to where the phi leads.
        obtain ⟨id, t', b', rfl, hb'', hid, hall⟩ := hσ.phi x hx'
        obtain ⟨e, he', hblock, -⟩ := h.tabled.phis t' b' id hb'' hid
        obtain rfl : t' = t := hblock.symm.trans (Option.some.inj ((home_natCast he').symm.trans (hkt ▸ hk)))
        cases hb.symm.trans hb''
        obtain ⟨br, hbr, hblock, hmet, -⟩ := h.exists_branch hb ht hid hl he
        rw [hsame, hphi id hid br hbr hblock, ← hall br hbr, ha.stands _ hmet]
      · have hnot : ∀ id ∈ b.phis, x ≠ (id : Int) := fun id hid heq => by
          have := hhome id hid
          rw [← heq, hk] at this
          exact hkt (Option.some.inj this)
        rw [hsame, hkeep x hnot]
        exact ha.stands x ⟨k, hk, hdom.of_edge hkt he⟩

/-- States of both sides before the same block, with the same memory. -/
inductive Beside (f : Func) (σ : Ref → Ref) : Program.State → Program.State → Prop
  | intro {l : Label} {r r' : Registers} (m : Memory) :
    Graph.Reaches f.succsOf l → Agree f σ l r r' → Beside f σ ⟨l, r, m⟩ ⟨l, r', m⟩

/-- Steps of both sides that end alike or lead to states side by side. -/
def Alike (f : Func) (σ : Ref → Ref) (a b : Step Program.State) : Prop :=
  (∃ o, a.end? = some o ∧ b.end? = some o) ∨
    ∃ s s', a = .next s ∧ b = .next s' ∧ Beside f σ s s'

section

variable (ha : Agree f s.apply l r r') (hl : Graph.Reaches f.succsOf l)
include ha hl

theorem Agree.follow {t : Int} (he : t ∈ f.succsOf l) (m : Memory) :
    Alike f s.apply (Program.follow (f.edge l t) r m) (Program.follow (f'.edge l t) r' m) := by
  obtain ⟨n, rfl⟩ := Int.eq_ofNat_of_zero_le (h.range l hl t he).1
  obtain ⟨r1, r1', hok, hok', hagree⟩ := ha.take hd h h' hends hσ hl he
  simp only [Program.follow, hok, hok']
  exact .inr ⟨_, _, rfl, rfl, .intro m (hl.step he) hagree⟩

/-- Both sides leave a block alike. -/
theorem Agree.leave {x : Expr} (hops : ∀ y ∈ x.operands, f.Met y l)
    (htargets : ∀ t ∈ x.targets, t ∈ f.succsOf l) (m : Memory) :
    Alike f s.apply (Program.leave r m (f.exit l x))
      (Program.leave r' m (f'.exit l (x.mapOperands s.apply))) := by
  have hend : Alike f s.apply (.done Word.zero m) (.done Word.zero m) := .inl ⟨_, rfl, rfl⟩
  cases x with
  | jump t => exact ha.follow hd h h' hends hσ hl (htargets t (List.mem_singleton.2 rfl)) m
  | branch c yes no =>
    have hc := ha.fetch hσ.merges (hops c (List.mem_singleton.2 rfl))
    simp only [Expr.mapOperands, exit]
    by_cases heq : yes = no
    · simp only [if_pos heq]
      exact ha.follow hd h h' hends hσ hl (htargets yes (by simp [Expr.targets, heq])) m
    · simp only [if_neg heq, Program.leave, hc.1, hc.2]
      split
      · exact ha.follow hd h h' hends hσ hl (htargets yes (by simp [Expr.targets, heq])) m
      · exact ha.follow hd h h' hends hσ hl (htargets no (by simp [Expr.targets, heq])) m
  | ret y =>
    cases y with
    | none => exact hend
    | some y =>
      have hy := ha.fetch hσ.merges (hops y (List.mem_singleton.2 rfl))
      simp only [Expr.mapOperands, exit, Program.leave, hy.1, hy.2]
      exact .inl ⟨_, rfl, rfl⟩
  | _ => exact hend

end

end Steps

/-! ## Compiled blocks -/

section Compiled

variable {l : Label} {b : Block} {ids : List Nat}

theorem command_spec {id : Nat} (h : f.command id e = .ok (some c)) :
    c.reads = e.expr.operands ∧ (c.out? = none ∨ c.out? = some id) := by
  obtain ⟨x, t, position, k⟩ := e
  cases x with
  | arg | phi | jump | branch | ret | foreign => simp [command] at h
  | _ =>
    simp only [command, Except.ok.injEq, Option.some.injEq] at h
    subst h
    simp [Command.reads, Command.out?, Compute.reads, Expr.operands]

/-- Compiled commands read what was met and write what their block defines. -/
theorem Accepted.fits (h : f.Accepted g) (hσ : f.Substitutes σ) (hl : Graph.Reaches f.succsOf l)
    (hb : f.blocks[l]? = some b) (hids : ids ⊆ b.code) (hcs : f.commands ids = .ok cs) :
    ∀ c ∈ cs, Fits f σ l c := by
  induction ids generalizing cs with
  | nil =>
    cases hcs
    exact nofun
  | cons id ids ih =>
    have hid := hids List.mem_cons_self
    obtain ⟨e, he, hblock, -⟩ := h.tabled.code l b id hb hid
    simp only [commands, he] at hcs
    cases hc : f.command id e with
    | error err => rw [hc] at hcs; cases hcs
    | ok c =>
      rw [hc] at hcs
      cases hrest : f.commands ids with
      | error err => rw [hrest] at hcs; cases hcs
      | ok rest =>
        rw [hrest] at hcs
        cases hcs
        intro c' hc'
        rcases List.mem_append.1 hc' with hc' | hc'
        · obtain rfl : c = some c' := by simpa [Option.mem_toList] using hc'
          obtain ⟨hreads, hout⟩ := command_spec hc
          refine ⟨fun x hx => h.operand l b id e x hb hl (.inl hid) he (hreads ▸ hx), fun n hn => ?_⟩
          rcases hout with hout | hout
          · rw [hout] at hn
            cases hn
          · cases hout.symm.trans hn
            exact ⟨by rw [home_natCast he, hblock], hσ.code h.tabled hb hid⟩
        · exact ih (fun i hi => hids (List.mem_cons_of_mem id hi)) hrest c' hc'

/-- A block as it is compiled on both sides. -/
structure Pairs (f f' : Func) (σ : Ref → Ref) (l : Label) (c c' : CompiledBlock) : Prop where
  code : c'.code = c.code.map (Command.rename σ)
  fits : ∀ cmd ∈ c.code, Fits f σ l cmd
  exit : ∃ x : Expr, c.exit = f.exit l x ∧ c'.exit = f'.exit l (x.mapOperands σ) ∧
    (∀ y ∈ x.operands, f.Met y l) ∧ ∀ t ∈ x.targets, t ∈ f.succsOf l

/-- A block has the same code on both sides, and it is compiled to related blocks or fails for the same
reason. -/
def CompilesAlike (f f' : Func) (R : Label → CompiledBlock → CompiledBlock → Prop) (l : Label) : Prop :=
  ∃ b b', f.blocks[l]? = some b ∧ f'.blocks[l]? = some b' ∧ b'.code = b.code ∧
    ((∃ e, f.compileBlock l b = .error e ∧ f'.compileBlock l b' = .error e) ∨
      ∃ c c', f.compileBlock l b = .ok c ∧ f'.compileBlock l b' = .ok c' ∧ R l c c')

variable {s : Replaced} (hd : f.Drops s f') (h : f.Accepted g) (hσ : f.Substitutes s.apply)
include hd hσ

theorem Drops.command (id : Nat) (e : Entry) : f'.command id { e with expr := e.expr.mapOperands s.apply } =
      (f.command id e).map (Option.map (Command.rename s.apply)) := by
  have hty : ∀ x, f'.tyOf (s.apply x) = f.tyOf x := fun x => by rw [hd.tyOf, hσ.merges.ty_eq]
  obtain ⟨x, t, position, k⟩ := e
  cases x with
  | ret y => cases y <;> rfl
  | _ => simp [Func.command, Expr.mapOperands, Except.map, Command.rename, Compute.rename, hty, Expr.form]

include h

section

variable (hl : Graph.Reaches f.succsOf l) (hb : f.blocks[l]? = some b)
include hl hb

theorem Drops.commands (hids : ids ⊆ b.code) :
    f'.commands ids = (f.commands ids).map (List.map (Command.rename s.apply)) := by
  induction ids with
  | nil => rfl
  | cons id ids ih =>
    have hget := hd.getElem?_entries h hl (hd.getElem?_blocks h hl hb) (.inr (.inl (hids List.mem_cons_self)))
    have ih := ih fun i hi => hids (List.mem_cons_of_mem id hi)
    obtain ⟨e, he, -⟩ := h.tabled.code l b id hb (hids List.mem_cons_self)
    rw [he] at hget
    simp only [Func.commands, he, hget, Option.map_some, hd.command hσ, ih]
    cases f.command id e with
    | error err => rfl
    | ok c =>
      simp only [Except.map]
      cases f.commands ids with
      | error err => rfl
      | ok cs => cases c <;> simp

theorem Drops.compileBlock : CompilesAlike f f' (Pairs f f' s.apply) l := by
  have hb' := hd.getElem?_blocks h hl hb
  refine ⟨b, _, hb, hb', rfl, ?_⟩
  simp only [Func.compileBlock, hd.commands h hσ hl hb (List.Subset.refl b.code)]
  cases hcs : f.commands b.code with
  | error e => exact .inl ⟨e, rfl, rfl⟩
  | ok cs =>
    refine .inr ⟨_, _, rfl, rfl, rfl, h.fits hσ hl hb (List.Subset.refl _) hcs, ?_⟩
    cases ht : b.term with
    | none => exact ⟨.ret none, rfl, rfl, by simp [Expr.operands], by simp [Expr.targets]⟩
    | some t =>
      have hget := hd.getElem?_entries h hl hb' (.inr (.inr ht))
      cases he : f.entries[t]? with
      | none =>
        rw [he] at hget
        simp only [Option.bind_some, he, hget]
        exact ⟨.ret none, rfl, rfl, by simp [Expr.operands], by simp [Expr.targets]⟩
      | some e =>
        rw [he] at hget
        simp only [Option.bind_some, he, hget, Option.map_some]
        refine ⟨e.expr, rfl, rfl, fun y hy => h.operand l b t e y hb hl (.inr ht) he hy, fun k hk => ?_⟩
        simp only [Func.succsOf, hb, Option.map_some, Option.getD_some, Func.targets, ht, Func.entryOf?,
          fetch?_natCast, he]
        exact hk

end

omit h hd hσ in
/-- Blocks that are compiled alike on both sides, in the same order. -/
theorem compileBlocks_alike {R : Label → CompiledBlock → CompiledBlock → Prop} (ls : List Label)
    (hls : ∀ l ∈ ls, CompilesAlike f f' R l) (start : Nat) (acc acc' : Array CompiledBlock) (hsize : acc'.size = acc.size)
    (hlt : ∀ l ∈ ls, l < acc.size) :
    (∃ e, f.compileBlocks ls start acc = .error e ∧ f'.compileBlocks ls start acc' = .error e) ∨
      ∃ ranges out out', f.compileBlocks ls start acc = .ok (ranges, out) ∧
        f'.compileBlocks ls start acc' = .ok (ranges, out') ∧
        (∀ l ∉ ls, out[l]? = acc[l]? ∧ out'[l]? = acc'[l]?) ∧
        ∀ l ∈ ls, ∃ c c', out[l]? = some c ∧ out'[l]? = some c' ∧ R l c c' := by
  induction ls generalizing start acc acc' with
  | nil => exact .inr ⟨[], acc, acc', rfl, rfl, fun _ _ => ⟨rfl, rfl⟩, nofun⟩
  | cons l ls ih =>
    obtain ⟨b, b', hb, hb', hcode, hc⟩ := hls l List.mem_cons_self
    simp only [compileBlocks, hb, hb', hcode]
    rcases hc with ⟨e, he, he'⟩ | ⟨c, c', hok, hok', hR⟩
    · rw [he, he']
      exact .inl ⟨e, rfl, rfl⟩
    rw [hok, hok']
    have hl := hlt l List.mem_cons_self
    rcases ih (fun k hk => hls k (List.mem_cons_of_mem l hk)) (start + (b.code.length + 1))
      (acc.setIfInBounds l c) (acc'.setIfInBounds l c')
      (by rw [Array.size_setIfInBounds, Array.size_setIfInBounds, hsize])
      (fun k hk => by rw [Array.size_setIfInBounds]; exact hlt k (List.mem_cons_of_mem l hk)) with
      ⟨e, he, he'⟩ | ⟨ranges, out, out', hout, hout', hkeep, hset⟩
    · simp only [he, he']
      exact .inl ⟨e, rfl, rfl⟩
    simp only [hout, hout']
    refine .inr ⟨_, out, out', rfl, rfl, fun k hk => ?_, fun k hk => ?_⟩
    · rw [List.mem_cons, not_or] at hk
      obtain ⟨ho, ho'⟩ := hkeep k hk.2
      rw [ho, ho', Array.getElem?_setIfInBounds_ne (Ne.symm hk.1),
        Array.getElem?_setIfInBounds_ne (Ne.symm hk.1)]
      exact ⟨rfl, rfl⟩
    · by_cases hmem : k ∈ ls
      · exact hset k hmem
      · obtain rfl := (List.mem_cons.1 hk).resolve_right hmem
        obtain ⟨ho, ho'⟩ := hkeep k hmem
        rw [ho, ho', Array.getElem?_setIfInBounds_self_of_lt hl,
          Array.getElem?_setIfInBounds_self_of_lt (hsize ▸ hl)]
        exact ⟨c, c', rfl, rfl, hR⟩

end Compiled

/-! ## Programs -/

/-- Programs of both sides. -/
structure Twins (f f' : Func) (σ : Ref → Ref) (p p' : Program) : Prop where
  args : p'.args = p.args
  regs : p.regs = f.entries.size
  regs' : p'.regs = f.entries.size
  block : ∀ l, Graph.Reaches f.succsOf l →
    ∃ c c', p.blocks[l]? = some c ∧ p'.blocks[l]? = some c' ∧ Pairs f f' σ l c c'

section Programs

variable {s : Replaced} {p p' : Program} (hd : f.Drops s f') (h : f.Accepted g)
  (hσ : f.Substitutes s.apply)

include hd h hσ in
/-- Both sides are compiled, or fail for the same reason. -/
theorem Drops.emit : (∃ e, f.emit g = .error e ∧ f'.emit g = .error e) ∨
    ∃ p p', f.emit g = .ok p ∧ f'.emit g = .ok p' ∧ Twins f f' s.apply p p' := by
  have hreach : ∀ l, l ∈ g.rpo ↔ Graph.Reaches f.succsOf l := h.graph.order.mem
  have hblocks : ∀ l ∈ g.rpo, CompilesAlike f f' (Pairs f f' s.apply) l := by
    intro l hl
    obtain ⟨b, hb⟩ := h.exists_block ((hreach l).1 hl)
    exact hd.compileBlock h hσ ((hreach l).1 hl) hb
  have hargs : f'.args = f.args := by rw [hd.same]
  unfold Func.emit
  dsimp only
  rw [hd.size]
  have hlt : ∀ l ∈ g.rpo,
      l < (Array.replicate f.blocks.size { code := [], exit := .ret none : CompiledBlock }).size := by
    intro l hl
    rw [Array.size_replicate]
    exact h.graph.order.lt l hl
  rcases compileBlocks_alike g.rpo hblocks 0 _ _ rfl hlt with ⟨e, he, he'⟩ | ⟨ranges, out, out', hout, hout', -, hset⟩
  · rw [he, he']
    exact .inl ⟨e, rfl, rfl⟩
  · rw [hout, hout']
    exact .inr ⟨_, _, rfl, rfl, hargs, rfl, hd.size_entries, fun l hl => hset l ((hreach l).2 hl)⟩

variable {a b : Program.State} (h' : f'.Accepted g) (hends : s.Ends) (ht : Twins f f' s.apply p p')
include hd h hσ h' hends ht

/-- One block is executed and left alike on both sides. -/
theorem Beside.step (hs : Beside f s.apply a b) : Alike f s.apply (p.step a) (p'.step b) ∧
    ((fetch? p'.blocks b.block).map fun c => effectsOf c.code b.regs b.memory) =
      (fetch? p.blocks a.block).map fun c => effectsOf c.code a.regs a.memory := by
  obtain ⟨m, hl, ha⟩ := hs
  rename_i l r r'
  obtain ⟨c, c', hc, hc', hpair⟩ := ht.block l hl
  obtain ⟨x, hexit, hexit', hops, htargets⟩ := hpair.exit
  obtain ⟨heffects, hexec⟩ := ha.execAll hσ.merges hpair.fits m
  simp only [fetch?_natCast, hc, hc', Option.map_some, hpair.code, heffects]
  refine ⟨?_, trivial⟩
  simp only [Program.step, fetch_natCast hc, fetch_natCast hc', hpair.code]
  rcases hexec with ⟨e, he, he'⟩ | ⟨r1, r1', m1, hok, hok', hagree⟩
  · simp only [he, he']
    exact .inl ⟨_, rfl, rfl⟩
  · simp only [hok, hok', hexit, hexit']
    exact hagree.leave hd h h' hends hσ hl hops htargets m1

/-- Runs from states side by side end alike and store the same. -/
theorem Beside.run (hs : Beside f s.apply a b) (fuel : Nat) :
    iterate p'.step fuel b = iterate p.step fuel a ∧ p'.effectsFrom fuel b = p.effectsFrom fuel a := by
  induction fuel generalizing a b with
  | zero => exact ⟨rfl, rfl⟩
  | succ fuel ih =>
    obtain ⟨halike, heffects⟩ := hs.step hd h hσ h' hends ht
    rw [Program.effectsFrom, Program.effectsFrom, heffects]
    rcases halike with ⟨o, ho, ho'⟩ | ⟨a', b', ha, hb, hs'⟩
    · refine ⟨by rw [iterate_stop ho, iterate_stop ho'], ?_⟩
      cases hstep : p.step a with
      | next => rw [hstep] at ho; cases ho
      | _ =>
        cases hstep' : p'.step b with
        | next => rw [hstep'] at ho'; cases ho'
        | _ => rfl
    · obtain ⟨hrun, hrest⟩ := ih hs'
      rw [iterate_next ha, iterate_next hb, ha, hb]
      exact ⟨hrun, congrArg _ hrest⟩

end Programs

theorem size_placeArgs {args : Array Word} {i : Nat} {ds : List Nat} {r' : Registers}
    (h : Program.placeArgs args i ds r = .ok r') : r'.size = r.size := by
  induction ds generalizing i r with
  | nil =>
    cases h
    rfl
  | cons d ds ih =>
    rw [Program.placeArgs] at h
    split at h
    · cases h
    split at h
    · cases h
    rename_i r1 hw
    rw [ih h]
    unfold Registers.write at hw
    split at hw
    · split at hw
      · cases hw
        exact Array.size_setIfInBounds
      · cases hw
    · cases hw

/-- Both sides agree in the beginning: no phi of the entry is replaced. -/
theorem agree_entry (hm : Graph.Merges f.succsOf f.home f.tyOf σ) (hr : r.size = f.entries.size) :
    Agree f σ Graph.entry r r := by
  refine ⟨hr, hr, fun _ _ => rfl, fun x hx => ?_⟩
  by_cases he : σ x = x
  · rw [he]
  · obtain ⟨l, hl, -, hne, -⟩ := hm.joins x he
    obtain ⟨k, hk, hdom⟩ := hx
    cases hl.symm.trans hk
    exact absurd (Graph.dom_entry_iff.1 hdom) hne

/-- A function that was pruned and passed its check, and to whose entry no edge leads, runs the same
without its trivial phis: both fail to compile for the same reason, or both compile, and then all runs
come to the same end with the same memory after the same stores in the same order, or go on forever. -/
theorem removal_keeps_runs {f f₁ f₂ : Func} {g : Graph} (hf : f.Made) (hp : f.prune = .ok f₁)
    (hv : f₁.verify = .ok (f₂, .ok g))
    (hentry : ∀ l, Graph.Reaches f₁.succsOf l → ¬ Graph.Edge f₁.succsOf l Graph.entry) :
    (∃ e, f₁.emit g = .error e ∧ f₁.removeTrivialPhis.2.emit g = .error e) ∨
      ∃ p p', f₁.emit g = .ok p ∧ f₁.removeTrivialPhis.2.emit g = .ok p' ∧
        ∀ (fuel : Nat) (args : Array Word) (m : Memory), p'.run fuel args m = p.run fuel args m ∧
          p'.effects fuel args m = p.effects fuel args m := by
  have h : f₁.Accepted g := accepted_of_verify hf.tabled hp hv
  obtain ⟨hends, hσ⟩ := h.trivialPhis hentry
  by_cases hzero : f₁.trivialPhis.count = 0
  · -- Nothing was replaced.
    have hself : f₁.removeTrivialPhis.2 = f₁ := by
      rw [removeTrivialPhis, if_pos hzero]
    rw [hself]
    cases f₁.emit g with
    | error e => exact .inl ⟨e, rfl, rfl⟩
    | ok p => exact .inr ⟨p, p, rfl, rfl, fun _ _ _ => ⟨rfl, rfl⟩⟩
  · have hd : f₁.Drops f₁.trivialPhis f₁.removeTrivialPhis.2 := by
      rw [removeTrivialPhis, if_neg hzero]
      exact drops_removed hσ.merges.idem f₁
    have h' := hd.accepted h hσ.merges h.tabled.removeTrivialPhis
    refine (hd.emit h hσ).imp_right fun ⟨p, p', hp, hp', ht⟩ => ⟨p, p', hp, hp', fun fuel args m => ?_⟩
    rw [Program.run, Program.run, Program.effects, Program.effects, ht.args, ht.regs, ht.regs']
    cases hplace : Program.placeArgs args 0 p.args (Array.replicate f₁.entries.size Word.zero) with
    | error e => exact ⟨rfl, rfl⟩
    | ok r =>
      have hsize : r.size = f₁.entries.size := (size_placeArgs hplace).trans Array.size_replicate
      exact Beside.run hd h hσ h' hends ht (.intro m Graph.reaches_entry (agree_entry hσ.merges hsize)) fuel

/-- A loop that stores a word as long as its third argument says. Its three phis are trivial; the second
only when the first is replaced. -/
def fillLoop : Func :=
  let f := create "fill" ⟨[.ptr .i64, .i64, .bool], .i64⟩
  let f := (f.newBlock "loop").2
  let f := (f.newBlock "body").2
  let f := (f.newBlock "exit").2
  let f := (f.add 0 (.jump 1) .void none).2
  let f := (f.add 1 (.phi [⟨0, 1⟩, ⟨2, 4⟩]) .i64 none).2
  let f := (f.add 1 (.phi [⟨0, 1⟩, ⟨2, 4⟩]) .i64 none).2
  let f := (f.add 1 (.phi [⟨0, 0⟩, ⟨2, 6⟩]) (.ptr .i64) none).2
  let f := (f.add 1 (.branch 2 2 3) .void none).2
  let f := (f.add 2 (.store 6 5) .void none).2
  let f := (f.add 2 (.jump 1) .void none).2
  (f.add 3 (.ret (some 5)) .void none).2

theorem made_fillLoop : fillLoop.Made :=
  .add _ _ _ _ <| .add _ _ _ _ <| .add _ _ _ _ <| .add _ _ _ _ <| .add _ _ _ _ <| .add _ _ _ _ <|
    .add _ _ _ _ <| .add _ _ _ _ <| .newBlock _ <| .newBlock _ <| .newBlock _ <| .create _ _

theorem removal_keeps_runs_fillLoop : ∃ f₁ f₂ g p p', fillLoop.Made ∧ fillLoop.prune = .ok f₁ ∧
    f₁.verify = .ok (f₂, .ok g) ∧ f₁.emit g = .ok p ∧ f₁.removeTrivialPhis.2.emit g = .ok p' ∧
    ∀ (fuel : Nat) (args : Array Word) (m : Memory), p'.run fuel args m = p.run fuel args m ∧
      p'.effects fuel args m = p.effects fuel args m := by
  obtain ⟨f₁, f₂, g, p, hp, hv, hemit⟩ : ∃ f₁ f₂ g p, fillLoop.prune = .ok f₁ ∧
    f₁.verify = .ok (f₂, .ok g) ∧ f₁.emit g = .ok p := ⟨_, _, _, _, rfl, rfl, rfl⟩
  have hentry : ∀ l, Graph.Reaches f₁.succsOf l → ¬ Graph.Edge f₁.succsOf l Graph.entry := by
    intro l _ he
    rw [succsOf_prune made_fillLoop.tabled hp, Graph.Edge] at he
    have hlt : l < 4 := by
      by_contra hl
      rw [succsOf, Array.getElem?_eq_none (Nat.le_of_not_lt hl)] at he
      cases he
    revert he
    interval_cases l <;> decide +kernel
  rcases removal_keeps_runs made_fillLoop hp hv hentry with ⟨e, he, -⟩ | ⟨q, p', hq, hp', hrun⟩
  · rw [hemit] at he
    cases he
  · cases hemit.symm.trans hq
    exact ⟨f₁, f₂, g, p, p', made_fillLoop, hp, hv, hemit, hp', hrun⟩

end Func

end Codesmith.Ssa
