import Codesmith.Proofs.Gen.Copies
import Codesmith.Proofs.Machine.Listing

/-!
# Copies as one assignment

Wherever the instructions for copies stand in code that was assembled, running them is one assignment: every
target gets the word that its source held before, and the other registers in use keep theirs.
-/

namespace Codesmith.Gen

open Machine Machine.Assembler

/-- Instructions that were written one after another follow each other in the code. -/
theorem has_of_assemble {name : String} {before behind : List Edit} {xs : List Instr} {o : Object}
    (ho : (written name (before ++ xs.map .emit ++ behind)).assemble = .ok o) :
    o.Has (written name before).size xs := by
  intro i x hx
  have hxs : (xs.map Edit.emit).filterMap Edit.instr? = xs := by
    rw [List.filterMap_map]
    exact List.filterMap_some
  rw [(assemble_inv ho).1, written, List.foldl_append, List.foldl_append, text_foldl, text_foldl, hxs,
    ← written, Assembler.size, Array.append_assoc, Array.getElem?_append_right (Nat.le_add_right _ _),
    Nat.add_sub_cancel_left, Array.getElem?_append_left]
  · simpa using hx
  · simpa using (List.getElem?_eq_some_iff.1 hx).1

/-- Copies are made at the same time, whatever chains, cycles, repeated sources or copies of a register to
itself they contain: started in any register file that has the registers they name, their instructions
run one after another, leave each target with the word that its source held at the beginning, and no
other register below the free ones changes. -/
theorem parallelCopy_simultaneous {dst src : List Reg} {temp : Reg} (hlen : dst.length = src.length)
    (hnd : dst.Nodup) (hregs : ∀ x ∈ dst ++ src, 0 ≤ x ∧ x < temp) (name : String) (before behind : List Edit)
    {o : Object}
    (ho : (written name (before ++ (parallelCopy (dst.zip src) temp).map .emit ++ behind)).assemble = .ok o)
    (args : Array Word) (m : Memory) {r : Registers}
    (hr : ∀ x ∈ parallelCopy (dst.zip src) temp, ∀ y ∈ x.writes ++ x.reads, 0 ≤ y ∧ y < r.size) :
    ∃ r', Walks (o.step args) (parallelCopy (dst.zip src) temp).length ⟨(written name before).size, r, m⟩
        ⟨((written name before).size + (parallelCopy (dst.zip src) temp).length : Nat), r', m⟩ ∧
      r'.size = r.size ∧ (∀ (i : Nat) x y, dst[i]? = some x → src[i]? = some y → r'.read x = r.read y) ∧
      ∀ x < temp, x ∉ dst → r'.read x = r.read x := by
  have hhas := has_of_assemble ho
  rw [parallelCopy_eq] at hhas hr ⊢
  rw [List.length_map]
  have hfst : (dst.zip src).map Prod.fst = dst := List.map_fst_zip hlen.le
  have hmoves : ∀ n ∈ dst.zip src, (0 ≤ n.1 ∧ n.1 < temp) ∧ 0 ≤ n.2 ∧ n.2 < temp := fun n hn =>
    ⟨hregs _ (List.mem_append_left _ (List.of_mem_zip hn).1), hregs _ (List.mem_append_right _ (List.of_mem_zip hn).2)⟩
  have hplan : ∀ n ∈ plan (dst.zip src) temp nextReg,
      (0 ≤ n.1 ∧ n.1 < r.size) ∧ 0 ≤ n.2 ∧ n.2 < r.size := by
    intro n hn
    have hx := hr _ (List.mem_map_of_mem hn)
    exact ⟨hx _ List.mem_cons_self, hx _ (List.mem_cons_of_mem _ List.mem_cons_self)⟩
  have hexact := plan_nextReg fun n hn => (hplan n hn).imp And.left And.left
  rw [hexact] at hplan hhas ⊢
  obtain ⟨W, r', hpass, -, -, hsize, hread⟩ := (assemble_inv ho).2.2.1.passes_copies args _ hplan hhas rfl m
    (ordered_plan fun _ _ => Set.mem_univ _)
  obtain ⟨htargets, hothers⟩ :=
    moveAll_plan (hfst.symm ▸ hnd) (fun n hn => ⟨(hmoves n hn).1.2, (hmoves n hn).2.2⟩) r.read
  refine ⟨r', hpass.walks, hsize, fun i x y hx hy => ?_, fun x hx hnot => ?_⟩
  · rw [hread]
    exact htargets (x, y) (List.mem_of_getElem? (List.getElem?_zip_eq_some.2 ⟨hx, hy⟩))
  · rw [hread]
    exact hothers x hx (hfst.symm ▸ hnot)

/-- Two registers are exchanged, a third gets a word that is overwritten, and a fourth keeps its own. -/
theorem parallelCopy_exchange : ∃ o, (written "f" ([] ++ (parallelCopy ([0, 1, 2, 3].zip [1, 0, 0, 3]) 4).map .emit ++
      [.emit (.ret none)])).assemble = .ok o ∧
    ∃ r', Walks (o.step #[]) 8 ⟨0, #[.ofBits 5, .ofBits 6, .ofBits 7, .ofBits 8, .zero, .zero, .zero, .zero], .empty⟩
      ⟨8, r', .empty⟩ ∧ r'.read 0 = .ofBits 6 ∧ r'.read 1 = .ofBits 5 ∧ r'.read 2 = .ofBits 5 ∧
      r'.read 3 = .ofBits 8 := by
  refine ⟨_, rfl, ?_⟩
  obtain ⟨r', hwalks, -, hmoved, -⟩ := @parallelCopy_simultaneous [0, 1, 2, 3] [1, 0, 0, 3] 4 rfl
    (by decide) (by decide) "f" [] [.emit (.ret none)] _ rfl #[] .empty
    #[.ofBits 5, .ofBits 6, .ofBits 7, .ofBits 8, .zero, .zero, .zero, .zero] (by decide)
  exact ⟨r', hwalks, hmoved 0 0 1 rfl rfl, hmoved 1 1 0 rfl rfl, hmoved 2 2 0 rfl rfl, hmoved 3 3 3 rfl rfl⟩

end Codesmith.Gen
