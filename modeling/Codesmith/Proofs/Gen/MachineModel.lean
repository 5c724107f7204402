import Codesmith.Gen.MachineDraft
import Codesmith.Proofs.Chart.Edit

/-!
# Charts of functions for the register machine

`MachineDraft.Models` says that a draft describes a chart. Every call that passes its check changes the
draft and the chart alike.
-/

namespace Codesmith.Gen

def Act.instr : Act → Machine.Instr
  | compute out c => .compute out c
  | arg out n => .arg out n
  | store k p x => .store k p x

/-- A block of code shows a block of a chart. -/
structure MachineBlock.Shows (b : MachineBlock) (cb : ChartBlock) : Prop where
  phis : (b.phis.map fun (n : Nat) => (n : Ref)) = cb.phis
  code : b.code.map Line.instr = cb.code.map Act.instr
  exit : b.exit.map Prod.fst = cb.exit

/-- The place where a value is defined. -/
def Def.home (d : Def) : Home :=
  ⟨d.block, d.place⟩

namespace MachineDraft

variable {α : Type} {check : Except Reason Unit} {l : Label} {op : Operation} {t : Ty} {p x id : Ref}
  {e : Exit} {join source b : BlockId} {i : Int} {name : String} {sig : Signature}

/-- The code that was built so far is that of the chart. -/
structure Draws (g : MachineDraft) (c : Chart) : Prop where
  types : ∀ x, g.draft.typeOf x = c.ty x
  size : g.blocks.size = c.size
  block : ∀ (l : Label) (b : MachineBlock), g.blocks[l]? = some b → b.Shows (c.block l)
  home : ∀ x, c.home x = (fetch? g.defs x).map Def.home
  incoming : ∀ x, c.incoming x = ((fetch? g.defs x).map Def.incoming).getD []

/-- The draft describes the chart and can be continued. -/
structure Models (g : MachineDraft) (c : Chart) : Prop where
  draft : g.draft.Agrees .machine c.sig c.ty
  size : g.blocks.size = c.size
  current : g.current = c.current
  block : ∀ (l : Label) (b : MachineBlock), g.blocks[l]? = some b → b.Shows (c.block l)
  home : ∀ x, c.home x = (fetch? g.defs x).map Def.home
  incoming : ∀ x, c.incoming x = ((fetch? g.defs x).map Def.incoming).getD []
  args : ∀ i : Int, fetch? g.args i = if 0 ≤ i ∧ i < c.sig.params.length then some i else none

variable {g : MachineDraft} {c : Chart}

theorem guarded_ok (h : check = .ok ()) (otherwise : α) (act : MachineDraft → α × MachineDraft) :
    g.guarded check otherwise act = act g := by
  rw [h]
  rfl

theorem Models.draws (h : g.Models c) : g.Draws c :=
  ⟨h.draft.types, h.size, h.block, h.home, h.incoming⟩

theorem Draws.exists_block (h : g.Draws c) (hl : l < c.size) :
    ∃ b, g.blocks[l]? = some b ∧ b.Shows (c.block l) := by
  have hb := Array.getElem?_eq_getElem (h.size.symm ▸ hl)
  exact ⟨_, hb, h.block l _ hb⟩

section

variable (h : g.Models c)
include h

theorem Models.live_iff (hc : c.Consistent) : g.live = .ok () ↔ (c.block c.current).exit = none := by
  obtain ⟨b, hb, hs⟩ := h.draws.exists_block hc.current
  have ht : g.terminated = .ok b.exit.isSome := by
    rw [terminated, h.current, fetch_natCast hb]
    rfl
  rw [live, seq_ok_iff, and_iff_right h.draft.ready, ht, ← hs.exit]
  cases b.exit <;> simp

theorem Models.codeSize (hc : c.Consistent) : g.codeSize = c.length c.current := by
  obtain ⟨b, hb, hs⟩ := h.draws.exists_block hc.current
  have hlen := congrArg List.length hs.code
  rw [List.length_map, List.length_map] at hlen
  rw [MachineDraft.codeSize, h.current, hb]
  exact hlen

theorem Models.fresh : c.home (g.defs.size : Int) = none := by
  rw [h.home, fetch?_natCast, Array.getElem?_eq_none le_rfl]
  rfl

/-! ## Calls that pass -/

theorem Models.edit (l : Label) {f : MachineBlock → MachineBlock} {f' : ChartBlock → ChartBlock}
    (hf : ∀ b cb, b.Shows cb → (f b).Shows (f' cb)) :
    { g with blocks := g.blocks.modify l f }.Models (c.edit l f') where
  draft := h.draft
  size := by rw [Array.size_modify]; exact h.size
  current := h.current
  block k b hb := by
    rw [Array.getElem?_modify] at hb
    rw [Chart.edit_block]
    split at hb
    · rename_i hlk
      subst hlk
      obtain ⟨b', hb', rfl⟩ := Option.map_eq_some_iff.1 hb
      rw [if_pos rfl]
      exact hf b' _ (h.block l b' hb')
    · rename_i hlk
      rw [if_neg (Ne.symm hlk)]
      exact h.block k b hb
  home := h.home
  incoming := h.incoming
  args := h.args

theorem Models.emit (a : Act) : (g.emit a.instr).Models (c.push a) := by
  unfold MachineDraft.emit Chart.push
  rw [← h.current]
  refine h.edit g.current fun b cb hs => ⟨hs.phis, ?_, hs.exit⟩
  rw [List.map_append, List.map_append, hs.code]
  rfl

theorem Models.define (t : Ty) (p : Home) :
    (g.define t ⟨p.block, p.place, []⟩).2.Models (c.define (g.defs.size : Int) p t) where
  draft := h.draft.setType _ t
  size := h.size
  current := h.current
  block := h.block
  home x := by
    simp only [Chart.define, Function.update_apply, MachineDraft.define, fetch?_push]
    split
    · rfl
    · exact h.home x
  incoming x := by
    simp only [Chart.define, MachineDraft.define, fetch?_push]
    split
    · rename_i hx
      rw [h.incoming, hx, fetch?_natCast, Array.getElem?_eq_none le_rfl]
      rfl
    · exact h.incoming x
  args := h.args

end

section

variable (h : g.Models c) (hc : c.Consistent) (hl : c.Unended)
include h hc hl

theorem Models.value (hop : op.Fits c.ty) :
    ∃ x g', g.value op = (x, g') ∧ c.home x = none ∧ 0 ≤ x ∧ g'.Models (c.value x op) := by
  have hcheck : (do g.live; g.draft.checkOperation op) = .ok () :=
    seq_ok_iff.2 ⟨(h.live_iff hc).2 hl, h.draft.checkOperation.2 hop⟩
  rw [MachineDraft.value, guarded_ok hcheck]
  refine ⟨_, _, rfl, h.fresh, Int.natCast_nonneg _, ?_⟩
  rw [Chart.value, ← h.codeSize hc, ← h.current]
  exact (h.define op.ty ⟨g.current, some g.codeSize⟩).emit (.compute _ op.compute)

theorem Models.store (hp : (c.ty p).isPtr = true) (hx : c.ty x = t) (ht : t.kind ≠ .invalid) :
    (g.store t p x).Models (c.store t p x) := by
  have hcheck : (do g.live; g.draft.checkStore t p x) = .ok () :=
    seq_ok_iff.2 ⟨(h.live_iff hc).2 hl, h.draft.checkStore.2 ⟨hp, hx, ht⟩⟩
  rw [MachineDraft.store, guarded_ok hcheck]
  exact h.emit (.store t.kind p x)

theorem Models.terminate (he : e.Fits c.sig.result c.size c.ty) : (g.terminate e).Models (c.terminate e) := by
  have hcheck : (do g.live; g.draft.checkExit g.blocks.size e) = .ok () :=
    seq_ok_iff.2 ⟨(h.live_iff hc).2 hl, h.size ▸ h.draft.checkExit.2 he⟩
  rw [MachineDraft.terminate, guarded_ok hcheck, Chart.terminate, ← h.current]
  exact h.edit g.current fun b cb hs => ⟨hs.phis, hs.code, rfl⟩

end

section

variable (h : g.Models c)
include h

theorem Models.phi (hj : 0 ≤ join ∧ join < c.size) (ht : t.kind ≠ .invalid) :
    ∃ x g', g.phi join t = (x, g') ∧ c.home x = none ∧ 0 ≤ x ∧ g'.Models (c.phi x join.toNat t) := by
  have hcheck : (do g.draft.ready; Draft.checkBlock g.blocks.size join; Draft.scalar t) = .ok () :=
    seq_ok_iff.2 ⟨h.draft.ready, seq_ok_iff.2
      ⟨Draft.checkBlock_ok_iff.2 (h.size ▸ hj), Draft.scalar_ok_iff.2 ht⟩⟩
  rw [MachineDraft.phi, guarded_ok hcheck]
  refine ⟨_, _, rfl, h.fresh, Int.natCast_nonneg _, ?_⟩
  refine (h.define t ⟨join.toNat, none⟩).edit join.toNat fun b cb hs => ⟨?_, hs.code, hs.exit⟩
  rw [List.map_append, hs.phis]
  rfl

theorem Models.checkPhi_iff : g.checkPhi id = .ok () ↔ ∃ l, c.home id = some ⟨l, none⟩ := by
  rw [checkPhi, h.home]
  cases hd : fetch? g.defs id with
  | none => simp
  | some d =>
    obtain ⟨l, p, es⟩ := d
    cases p <;> simp [Def.home]

theorem Models.addIncoming (hid : c.home id = some ⟨l, none⟩) (hs : 0 ≤ source ∧ source < c.size) (x : Ref) :
    (g.addIncoming id source x).Models (c.join id source x) := by
  have hcheck : (do g.draft.ready; Draft.checkBlock g.blocks.size source; g.checkPhi id) = .ok () :=
    seq_ok_iff.2 ⟨h.draft.ready, seq_ok_iff.2
      ⟨Draft.checkBlock_ok_iff.2 (h.size ▸ hs), h.checkPhi_iff.2 ⟨l, hid⟩⟩⟩
  obtain ⟨d, hd, -⟩ := Option.map_eq_some_iff.1 ((h.home id).symm.trans hid)
  obtain ⟨n, rfl, -⟩ := fetch?_eq_some_iff.1 hd
  rw [MachineDraft.addIncoming, guarded_ok hcheck]
  refine { h with home := fun y => ?_, incoming := fun y => ?_ }
  · simp only [fetch?_modify, Int.toNat_natCast]
    refine (h.home y).trans ?_
    split
    · rw [Option.map_map]
      rfl
    · rfl
  · simp only [fetch?_modify, Int.toNat_natCast, Chart.join, Function.update_apply]
    split
    · rename_i hy
      rw [h.incoming, hy, hd]
      rfl
    · exact h.incoming y

theorem Models.newBlock (hc : c.Consistent) (name : String) :
    ∃ g', g.newBlock name = ((c.size : Int), g') ∧ g'.Models c.newBlock := by
  refine ⟨_, congrArg (fun n : Nat => ((n : Int), _)) h.size, ?_⟩
  refine { h with size := by simpa [Chart.newBlock] using h.size, block := fun l b hb => ?_ }
  rw [Array.getElem?_push] at hb
  split at hb
  · rename_i hl
    cases hb
    have : c.newBlock.block l = {} := hc.beyond l (by rw [hl, h.size])
    rw [this]
    exact ⟨rfl, rfl, rfl⟩
  · exact h.block l b hb

theorem Models.setBlock (hb : 0 ≤ b ∧ b < c.size) : (g.setBlock b).Models (c.setBlock b.toNat) := by
  rw [MachineDraft.setBlock, if_pos (h.size ▸ hb)]
  exact { h with current := rfl }

theorem Models.arg (hi : 0 ≤ i ∧ i < c.sig.params.length) : g.arg i = (i, g) := by
  rw [MachineDraft.arg, h.args, if_pos hi]

end

/-! ## The beginning -/

/-- The draft whose arguments so far have the given types. -/
def begun (p : Option Position) (name : String) (sig : Signature) (ts : List Ty) : MachineDraft where
  draft := { backend := .machine, name, sig, position := p, begun := true, types := ts.toArray }
  blocks := #[{ name := "entry", code := (List.range ts.length).map fun (i : Nat) => ⟨.arg i i, p⟩ }]
  current := Graph.entry
  defs := ((List.range ts.length).map fun i => ⟨Graph.entry, some i, []⟩).toArray
  args := ((List.range ts.length).map fun (i : Nat) => (i : Ref)).toArray

theorem defineArgs_cons_scalar {p : Option Position} {ts : List Ty} (ht : t.kind ≠ .invalid) (us : List Ty) :
    (begun p name sig ts).defineArgs ts.length (t :: us) =
      (begun p name sig (ts ++ [t])).defineArgs (ts ++ [t]).length us := by
  rw [defineArgs, Draft.scalar_ok_iff.2 ht]
  simp [computed, define, emit, begun, Draft.setType, codeSize, List.range_succ, Graph.entry]

theorem defineArgs_scalar {p : Option Position} (ts us : List Ty) (hus : ∀ t ∈ us, t.kind ≠ .invalid) :
    (begun p name sig ts).defineArgs ts.length us = begun p name sig (ts ++ us) := by
  induction us generalizing ts with
  | nil => rw [defineArgs, List.append_nil]
  | cons t us ih =>
    rw [defineArgs_cons_scalar (hus t List.mem_cons_self),
      ih (ts ++ [t]) fun u hu => hus u (List.mem_cons_of_mem _ hu), List.append_assoc]
    rfl

theorem models_begun (p : Option Position) (name : String) (sig : Signature) :
    (begun p name sig sig.params).Models (.ofSig sig) where
  draft := ⟨rfl, rfl, rfl, rfl, rfl, fun x => rfl⟩
  size := rfl
  current := rfl
  block l b hb := by
    cases l with
    | zero =>
      obtain rfl : _ = b := Option.some.inj hb
      refine ⟨rfl, ?_, rfl⟩
      simp [begun, Chart.ofSig, Graph.entry, Function.comp_def, Act.instr]
    | succ l => cases hb
  home x := by
    cases x with
    | negSucc k => rfl
    | ofNat k =>
      simp only [begun, Int.ofNat_eq_natCast, fetch?_natCast, Chart.ofSig]
      by_cases hk : k < sig.params.length
      · simp [hk, Def.home]
      · simp [hk]
  incoming x := by
    cases x with
    | negSucc k => rfl
    | ofNat k =>
      simp only [begun, Int.ofNat_eq_natCast, fetch?_natCast, Chart.ofSig]
      by_cases hk : k < sig.params.length
      · simp [hk]
      · simp [hk]
  args i := by
    cases i with
    | negSucc k => rfl
    | ofNat k =>
      simp only [begun, Int.ofNat_eq_natCast, fetch?_natCast, Chart.ofSig]
      by_cases hk : k < sig.params.length
      · simp [hk]
      · simp [hk]

end MachineDraft

end Codesmith.Gen
