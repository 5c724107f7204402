import Codesmith.Gen.MachineVerify
import Codesmith.Proofs.Chart.Rule
import Codesmith.Proofs.Gen.MachineModel

/-!
# The verifier of the register machine

The verifier accepts a draft exactly if the chart that it describes is well formed.
-/

namespace Codesmith.Gen

variable {b : MachineBlock} {cb : ChartBlock}

theorem Act.reads_instr (a : Act) : a.instr.reads = a.reads := by
  cases a <;> rfl

theorem MachineBlock.Shows.getElem? (h : b.Shows cb) (i : Nat) :
    b.code[i]?.map Line.instr = cb.code[i]?.map Act.instr := by
  rw [← List.getElem?_map, ← List.getElem?_map, h.code]

theorem MachineBlock.Shows.length (h : b.Shows cb) : b.code.length = cb.code.length := by
  simpa using congrArg List.length h.code

namespace MachineDraft

variable {g : MachineDraft} {c : Chart} {gr : Graph}
variable {l : Label} {id : Nat}

section

variable (h : g.Draws c)
include h

theorem Draws.succs (hc : c.Consistent) : g.succs = c.succs := by
  funext l
  by_cases hl : l < c.size
  · obtain ⟨b, hb, hs⟩ := h.exists_block hl
    rw [MachineDraft.succs, Chart.succs, hb, ← hs.exit]
    obtain ⟨name, phis, code, exit⟩ := b
    cases exit <;> rfl
  · have hnone : g.blocks[l]? = none := Array.getElem?_eq_none (h.size ▸ Nat.le_of_not_lt hl)
    rw [MachineDraft.succs, Chart.succs, hnone, hc.beyond l (Nat.le_of_not_lt hl)]

theorem Draws.available_iff (hg : gr.Describes c.size c.succs) (hl : Graph.Reaches c.succs l) (i : Nat)
    (x : Ref) : g.available gr l i x = true ↔ c.Available l i x := by
  have hx := h.home x
  unfold available Chart.Available
  cases hd : fetch? g.defs x with
  | none =>
    rw [hd] at hx
    simp [hx]
  | some d =>
    rw [hd] at hx
    simp only [hx, Option.map_some, Option.some.injEq, exists_eq_left', ← hg.reachable, Def.home]
    by_cases hr : gr.reachable d.block = true
    · by_cases hb : d.block = l
      · cases hp : d.place <;> simp [hb, hb ▸ hr]
      · simp [hr, hb, hg.dominates _ _ hl]
    · simp [hr]

theorem Draws.verifyUses_iff (hg : gr.Describes c.size c.succs) (hl : Graph.Reaches c.succs l) {i : Nat}
    {position : Option Position} {form : String} {uses : List Ref} :
    g.verifyUses gr l i position form uses = .ok () ↔ ∀ x ∈ uses, c.Available l i x := by
  unfold verifyUses
  simp only [forM_ok_iff, ite_ok_iff', h.available_iff hg hl]

theorem Draws.sizeOf_eq {l : BlockId} (hl : 0 ≤ l ∧ l < c.size) : g.sizeOf l = c.length l.toNat := by
  obtain ⟨n, rfl⟩ := Int.eq_ofNat_of_zero_le hl.1
  obtain ⟨b, hb, hs⟩ := h.exists_block (Int.ofNat_lt.1 hl.2)
  rw [MachineDraft.sizeOf, fetch?_natCast, hb]
  exact hs.length

theorem Draws.verifyIncoming_iff (hc : c.Consistent) (hg : gr.Describes c.size c.succs) {e : EdgeValue}
    (he : e ∈ c.incoming id) (hr : Graph.Reaches c.succs e.source.toNat) :
    g.verifyIncoming gr l id e = .ok () ↔
      c.Available e.source.toNat (c.length e.source.toNat) e.ref ∧ c.ty e.ref = c.ty id := by
  obtain ⟨h0, h1⟩ := hc.source id e he
  rw [verifyIncoming, h.sizeOf_eq ⟨h0, h1⟩]
  simp only [← h.available_iff hg hr, h.types]
  split
  · simp_all
  · split <;> simp_all

theorem Draws.liveIncoming_eq (gr : Graph) (id : Nat) :
    g.liveIncoming gr id = (c.incoming id).filter fun e => gr.reachable e.source.toNat := by
  rw [liveIncoming, h.incoming]
  rfl

end

section

variable (h : g.Draws c) (hc : c.Consistent) (hg : gr.Describes c.size c.succs)
include h hc hg

theorem Draws.verifyPhi_iff (hl : Graph.Reaches c.succs l) : g.verifyPhi gr l id = .ok () ↔ c.Joins l id := by
  have hparts : g.verifyPhi gr l id = .ok () ↔
      ((g.liveIncoming gr id).length = (gr.preds.getD l []).length ∧
        ∀ p ∈ gr.preds.getD l [],
          (g.liveIncoming gr id).countP (fun e => e.source == ((p : Label) : Int)) = 1) ∧
      ∀ e ∈ g.liveIncoming gr id, g.verifyIncoming gr l id e = .ok () := by
    rw [verifyPhi]
    split
    · simp_all
    · rw [seq_ok_iff, forM_ok_iff, forM_ok_iff]
      simp only [ite_ok_iff']
      simp_all
  rw [hparts]
  exact Chart.joins_iff hc hg hl id (h.liveIncoming_eq gr id) fun e he hr =>
    (h.verifyIncoming_iff hc hg he hr).trans and_comm

theorem Draws.verifyBlock_iff (hl : Graph.Reaches c.succs l) :
    g.verifyBlock gr l = .ok () ↔ ∃ e, (c.block l).exit = some e ∧ (∀ x ∈ (c.block l).phis, c.Joins l x) ∧
      (∀ i a, (c.block l).code[i]? = some a → ∀ x ∈ a.reads, c.Available l i x) ∧
      ∀ x ∈ e.reads, c.Available l (c.length l) x := by
  obtain ⟨b, hb, hs⟩ := h.exists_block (hc.reaches_lt hl)
  have hlines : (∀ p ∈ b.code.zipIdx, ∀ x ∈ p.1.instr.reads, c.Available l p.2 x) ↔
      ∀ i a, (c.block l).code[i]? = some a → ∀ x ∈ a.reads, c.Available l i x := by
    constructor
    · intro hall i a ha x hx
      have hi := hs.getElem? i
      rw [ha] at hi
      obtain ⟨line, hline, hinstr⟩ := Option.map_eq_some_iff.1 hi
      exact hall (line, i) (List.mem_zipIdx_iff_getElem?.2 hline) x (by rwa [hinstr, Act.reads_instr])
    · rintro hall ⟨line, i⟩ hline x hx
      have hi := hs.getElem? i
      rw [List.mem_zipIdx_iff_getElem?.1 hline] at hi
      obtain ⟨a, ha, hinstr⟩ := Option.map_eq_some_iff.1 hi.symm
      exact hall i a ha x (by rwa [← Act.reads_instr, hinstr])
  have hphis : (∀ id ∈ b.phis, g.verifyPhi gr l id = .ok ()) ↔
      ∀ x ∈ (c.block l).phis, c.Joins l x := by
    rw [← hs.phis]
    simp [h.verifyPhi_iff hc hg hl]
  have hlen : b.code.length = c.length l := hs.length
  rw [verifyBlock, hb, ← hs.exit]
  obtain ⟨name, phis, code, exit⟩ := b
  cases exit with
  | none => simp
  | some e =>
    simp only [seq_ok_iff, forM_ok_iff, Option.map_some, Option.some.injEq, exists_eq_left',
      h.verifyUses_iff hg hl]
    rw [← hphis, ← hlines, ← hlen]

/-- The verifier accepts what describes a well-formed chart. -/
theorem Draws.verify_iff : g.verify gr = .ok () ↔ c.WellFormed := by
  have hall : g.verify gr = .ok () ↔
      ∀ l, Graph.Reaches c.succs l → g.verifyBlock gr l = .ok () := by
    rw [verify, forM_ok_iff]
    exact forall_congr' fun l => by rw [hg.order.mem]
  rw [hall]
  constructor
  · intro hv
    have hb := fun l hl => (h.verifyBlock_iff hc hg hl).1 (hv l hl)
    exact {
      ended := fun l hl => by
        obtain ⟨e, he, -⟩ := hb l hl
        rw [he]
        exact nofun
      joins := fun l hl => by
        obtain ⟨e, -, hphis, -⟩ := hb l hl
        exact hphis
      lines := fun l hl => by
        obtain ⟨e, -, -, hlines, -⟩ := hb l hl
        exact hlines
      exits := fun l hl e he => by
        obtain ⟨e', he', -, -, hexit⟩ := hb l hl
        cases he.symm.trans he'
        exact hexit }
  · intro hw l hl
    obtain ⟨e, he⟩ := Option.ne_none_iff_exists'.1 (hw.ended l hl)
    exact (h.verifyBlock_iff hc hg hl).2 ⟨e, he, hw.joins l hl, hw.lines l hl, hw.exits l hl e he⟩

end

end MachineDraft

end Codesmith.Gen
