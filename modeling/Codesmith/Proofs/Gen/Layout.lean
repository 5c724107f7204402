import Codesmith.Gen.Lowering
import Codesmith.Proofs.Chart.Moves
import Codesmith.Proofs.Gen.Copies
import Codesmith.Proofs.Gen.MachineVerify

/-!
# The layout of code for the register machine

Sections are written one after another, each at its label. The code of a draft that describes a
well-formed chart can always be assembled: it ends, every label is placed, and every register has a
number. `MachineDraft.Laid` sums up where the code of a block, of its exit and of a split edge stands.
-/

namespace Codesmith.Gen

variable {e : Exit} {y : Ref} {yes no : BlockId}

variable {ss : List Section} {i : Nat} {s : Section}

/-! ## Writing sections -/

def Section.text (s : Section) : List Machine.Instr :=
  s.code.map Line.instr

/-- The place where a section begins. -/
def offset (ss : List Section) (i : Nat) : Nat :=
  ((ss.take i).flatMap Section.text).length

theorem offset_cons (s : Section) (ss : List Section) (i : Nat) :
    offset (s :: ss) (i + 1) = s.text.length + offset ss i := by
  simp [offset]

theorem offset_succ (h : ss[i]? = some s) : offset ss (i + 1) = offset ss i + s.text.length := by
  obtain ⟨hi, rfl⟩ := List.getElem?_eq_some_iff.1 h
  rw [offset, offset, List.take_succ_eq_append_getElem hi, List.flatMap_append, List.length_append]
  simp

/-- The instructions of section `i` stand at its offset. -/
theorem getElem?_flatMap (h : ss[i]? = some s) {j : Nat} {x : Machine.Instr} (hx : s.text[j]? = some x) :
    (ss.flatMap Section.text)[offset ss i + j]? = some x := by
  induction ss generalizing i with
  | nil => cases h
  | cons s' ss ih =>
    cases i with
    | zero =>
      cases h
      have hj := (List.getElem?_eq_some_iff.1 hx).1
      rw [List.flatMap_cons, offset]
      simpa [List.getElem?_append_left hj] using hx
    | succ i =>
      rw [List.flatMap_cons, offset_cons, Nat.add_assoc,
        List.getElem?_append_right (Nat.le_add_right _ _), Nat.add_sub_cancel_left]
      exact ih h

theorem foldl_emit (xs : List Line) (a : Machine.Assembler) :
    (xs.foldl (fun a x => (a.setPosition x.position).emit x.instr) a).text =
        a.text ++ (xs.map Line.instr).toArray ∧
      (xs.foldl (fun a x => (a.setPosition x.position).emit x.instr) a).labels = a.labels ∧
      (xs.foldl (fun a x => (a.setPosition x.position).emit x.instr) a).error = a.error := by
  induction xs generalizing a with
  | nil => simp
  | cons x xs ih =>
    rw [List.foldl_cons]
    obtain ⟨htext, hlabels, herror⟩ := ih ((a.setPosition x.position).emit x.instr)
    refine ⟨?_, hlabels, herror⟩
    rw [htext]
    simp [Machine.Assembler.emit, Machine.Assembler.setPosition]

theorem write_spec {a : Machine.Assembler} (s : Section) {label : Nat}
    (hlabel : a.labels[label]? = some none) :
    (s.write a label).text = a.text ++ s.text.toArray ∧
      (s.write a label).labels = a.labels.setIfInBounds label (some a.text.size) ∧
      (s.write a label).error = a.error := by
  have hbind : a.bindLabel label =
      { a with labels := a.labels.setIfInBounds label (some a.text.size) } := by
    rw [Machine.Assembler.bindLabel, fetch?_natCast, hlabel]
    rfl
  have := foldl_emit s.code (a.bindLabel label)
  rw [hbind] at this
  unfold Section.write
  rw [hbind]
  exact this

theorem foldl_write (ss : List Section) (k : Nat) (a : Machine.Assembler)
    (hlabels : ∀ j, k ≤ j → j < k + ss.length → a.labels[j]? = some none) :
    ((ss.zipIdx k).foldl (fun a s => s.1.write a s.2) a).text = a.text ++ (ss.flatMap Section.text).toArray ∧
      ((ss.zipIdx k).foldl (fun a s => s.1.write a s.2) a).error = a.error ∧
      (∀ j < k, ((ss.zipIdx k).foldl (fun a s => s.1.write a s.2) a).labels[j]? = a.labels[j]?) ∧
      ∀ i < ss.length, ((ss.zipIdx k).foldl (fun a s => s.1.write a s.2) a).labels[k + i]? =
        some (some (a.text.size + offset ss i)) := by
  induction ss generalizing k a with
  | nil => simp
  | cons s ss ih =>
    have hk := hlabels k le_rfl (by simp)
    obtain ⟨htext, hlab, herror⟩ := write_spec s hk
    have hklt : k < a.labels.size := (Array.getElem?_eq_some_iff.1 hk).1
    rw [List.zipIdx_cons, List.foldl_cons]
    obtain ⟨htext', herror', hlow, hplaced⟩ := ih (k + 1) (s.write a k) fun j hj hj' => by
      rw [hlab, Array.getElem?_setIfInBounds_ne (by omega)]
      exact hlabels j (by omega) (by simp only [List.length_cons]; omega)
    refine ⟨?_, herror'.trans herror, fun j hj => ?_, fun i hi => ?_⟩
    · rw [htext', htext]
      simp
    · rw [hlow j (by omega), hlab, Array.getElem?_setIfInBounds_ne (by omega)]
    · cases i with
      | zero =>
        refine (hlow k (Nat.lt_succ_self k)).trans ?_
        rw [hlab]
        simp [hklt, offset]
      | succ i =>
        rw [offset_cons, ← Nat.add_assoc, Nat.add_right_comm]
        refine (hplaced i (by simpa using hi)).trans ?_
        rw [htext]
        simp [Nat.add_assoc]

namespace MachineDraft

variable {l : Label} {t : BlockId} {d : SplitEdge} {labels : Array (Option Nat)}

theorem layOut_spec (g : MachineDraft) (gr : Graph) :
    (g.layOut gr).text.toList = (g.sections gr).flatMap Section.text ∧ (g.layOut gr).error = none ∧
      ∀ i < (g.sections gr).length, (g.layOut gr).labels[i]? = some (some (offset (g.sections gr) i)) := by
  obtain ⟨htext, herror, -, hplaced⟩ := foldl_write (g.sections gr) 0
    { name := g.draft.name, labels := Array.replicate (g.sections gr).length none } fun j _ hj => by
      rw [Array.getElem?_replicate, if_pos (by simpa using hj)]
  refine ⟨?_, herror, fun i hi => ?_⟩
  · exact (congrArg Array.toList htext).trans (by simp)
  · simpa [layOut] using hplaced i hi

/-! ## The sections of a draft -/

theorem blockSections_getElem? (g : MachineDraft) (gr : Graph) (ls : List Label) (i : Nat) :
    (g.blockSections gr ls)[i]? = ls[i]?.map fun l => g.blockSection gr l ls[i + 1]? := by
  induction ls generalizing i with
  | nil => rfl
  | cons l ls ih =>
    cases i with
    | zero => cases ls <;> rfl
    | succ i => exact ih i

theorem length_blockSections (g : MachineDraft) (gr : Graph) (ls : List Label) :
    (g.blockSections gr ls).length = ls.length := by
  induction ls with
  | nil => rfl
  | cons l ls ih => rw [blockSections, List.length_cons, List.length_cons, ih]

variable {g : MachineDraft} {c : Chart} {gr : Graph}

theorem Draws.blockSection_text (h : g.Draws c) (hl : l < c.size) (he : (c.block l).exit = some e)
    (next : Option Label) : (g.blockSection gr l next).text =
      (c.block l).code.map Act.instr ++ g.exitCode gr l next e := by
  obtain ⟨⟨name, phis, code, exit⟩, hb, hs⟩ := h.exists_block hl
  have hexit := hs.exit.trans he
  cases exit with
  | none => cases hexit
  | some p =>
    obtain ⟨e', position⟩ := p
    obtain rfl : e' = e := Option.some.inj hexit
    rw [blockSection, hb, ← hs.code]
    simp [Section.text, Function.comp_def]

theorem Draws.moves_eq (h : g.Draws c) (l : Label) (ht : 0 ≤ t ∧ t < c.size) :
    g.moves l t = c.moves l t.toNat := by
  obtain ⟨n, rfl⟩ := Int.eq_ofNat_of_zero_le ht.1
  obtain ⟨b, hb, hs⟩ := h.exists_block (Int.ofNat_lt.1 ht.2)
  rw [MachineDraft.moves, Chart.moves, fetch?_natCast, hb, Int.toNat_natCast, ← hs.phis, List.flatMap_map]
  simp only [Option.map_some, Option.getD_some, h.incoming, fetch?_natCast]

theorem Draws.copies_eq (h : g.Draws c) (l : Label) (ht : 0 ≤ t ∧ t < c.size) :
    g.copies l t = (plan (c.moves l t.toNat) g.defs.size).map fun m => copyInstr m.1 m.2 := by
  rw [copies, parallelCopy_eq, h.moves_eq l ht]

/-- The label of a reached block is its place in the order of blocks. -/
theorem labelOf_eq (hg : gr.Describes c.size c.succs) (ht : Graph.Reaches c.succs t.toNat) :
    labelOf gr t = gr.rpo.idxOf t.toNat := by
  rw [labelOf, hg.place _ ((hg.order.mem _).2 ht)]
  rfl

theorem splitEdge?_source (h : g.splitEdge? l = some d) : d.source = l := by
  unfold splitEdge? at h
  split at h
  · split at h
    · rw [← Option.some.inj h]
    · cases h
  · cases h

theorem Draws.splitEdge?_eq (h : g.Draws c) (hl : l < c.size)
    (he : (c.block l).exit = some (.branch y yes no)) : ∃ position, g.splitEdge? l =
      if yes ≠ no ∧ g.moves l yes ≠ [] then some ⟨l, yes, position⟩ else none := by
  obtain ⟨⟨name, phis, code, exit⟩, hb, hs⟩ := h.exists_block hl
  have hexit := hs.exit.trans he
  cases exit with
  | none => cases hexit
  | some p =>
    obtain ⟨e, position⟩ := p
    obtain rfl : e = .branch y yes no := Option.some.inj hexit
    exact ⟨position, by rw [splitEdge?, hb]; rfl⟩

theorem Draws.splitEdge?_some (h : g.Draws c) (hl : l < c.size) (hd : g.splitEdge? l = some d) :
    ∃ y no, (c.block l).exit = some (.branch y d.target no) ∧ d.target ≠ no := by
  obtain ⟨⟨name, phis, code, exit⟩, hb, hs⟩ := h.exists_block hl
  rw [splitEdge?, hb] at hd
  match exit, hs, hd with
  | some (.branch y yes no, position), hs, hd =>
    simp only [Option.bind_some] at hd
    split at hd
    · rename_i hne
      rw [← Option.some.inj hd]
      exact ⟨y, no, hs.exit.symm, hne.1⟩
    · cases hd

/-- The label for a branch is that of the section of its split edge, or of its target if the edge is
not split. -/
theorem branchLabel_cases (hg : gr.Describes c.size c.succs) (hl : Graph.Reaches c.succs l) (yes : BlockId) :
    (∃ (i : Nat) (s : SplitEdge), g.splitEdge? l = some s ∧ (g.splitEdges gr)[i]? = some s ∧
      g.branchLabel gr l yes = gr.rpo.length + i) ∨
    g.splitEdge? l = none ∧ g.branchLabel gr l yes = labelOf gr yes := by
  unfold branchLabel
  cases hf : (g.splitEdges gr).findIdx? fun e => e.source == l with
  | none =>
    refine .inr ⟨?_, rfl⟩
    rw [List.findIdx?_eq_none_iff] at hf
    by_contra hne
    obtain ⟨s, hs⟩ := Option.ne_none_iff_exists'.1 hne
    have hmem : s ∈ g.splitEdges gr := List.mem_filterMap.2 ⟨l, (hg.order.mem l).2 hl, hs⟩
    have := hf s hmem
    rw [splitEdge?_source hs] at this
    simp at this
  | some i =>
    left
    obtain ⟨hi, hsource, -⟩ := List.findIdx?_eq_some_iff_getElem.1 hf
    have hget := List.getElem?_eq_getElem hi
    obtain ⟨l', -, hl'⟩ := List.mem_filterMap.1 (List.getElem_mem hi)
    have heq : l' = l := by
      rw [← splitEdge?_source hl']
      simpa using hsource
    exact ⟨i, _, heq ▸ hl', hget, rfl⟩

/-! ## Assembling never fails -/

/-- The instruction can be encoded, and its label has a place. -/
structure Placed (labels : Array (Option Nat)) (x : Machine.Instr) : Prop where
  encodable : x.Encodable
  target : ∀ l, x.target? = some l → ∃ n : Nat, fetch? labels l = some (some n)

theorem Placed.jump {l : Int} {n : Nat} (h : fetch? labels l = some (some n)) : Placed labels (.jump l) :=
  ⟨⟨nofun, nofun, nofun⟩, fun _ hl => Option.some.inj hl ▸ ⟨n, h⟩⟩

theorem Placed.copy {m : Reg × Reg} (h : 0 ≤ m.2) : Placed labels (copyInstr m.1 m.2) :=
  ⟨⟨fun _ hr => List.mem_singleton.1 hr ▸ h, fun _ _ _ _ _ heq => by simp [copyInstr] at heq, nofun⟩, nofun⟩

theorem placed_line (hc : c.Consistent) {a : Act} (ha : a ∈ (c.block l).code) : Placed labels a.instr := by
  have hf := hc.lines l a ha
  refine ⟨⟨fun r hr => ?_, fun out cond k x y heq => ?_, fun type text heq => ?_⟩, fun l hl => ?_⟩
  · rw [Act.reads_instr] at hr
    exact hc.nonneg r (hc.typed r (hf.reads r hr))
  · cases a with
    | compute out' v =>
      obtain ⟨rfl, rfl⟩ := Machine.Instr.compute.inj heq
      exact hf.cond _ _ _ _ _ rfl
    | arg => cases heq
    | store => cases heq
  · cases a <;> cases heq
  · cases a <;> cases hl

section Assembling

variable {labels : Array (Option Nat)} (h : g.Draws c) (hc : c.Consistent) (hw : c.WellFormed)
  (hg : gr.Describes c.size c.succs)
  (hlabels : ∀ i < (g.sections gr).length, labels[i]? = some (some (offset (g.sections gr) i)))
variable {l : Label} {t : BlockId} {x : Machine.Instr} {next : Option Label}

include h hc hw

theorem placed_copies (hl : Graph.Reaches c.succs l) (ht : 0 ≤ t ∧ t < c.size)
    (e : Graph.Edge c.succs l t.toNat) (hx : x ∈ g.copies l t) : Placed labels x := by
  rw [h.copies_eq l ht] at hx
  obtain ⟨m, hm, rfl⟩ := List.mem_map.1 hx
  refine .copy (nonneg_of_mem_plan (Int.natCast_nonneg _) (fun n hn => ?_) hm).2
  obtain ⟨h1, h2⟩ := hw.home_of_mem_moves hc hl e hn
  exact ⟨hc.nonneg _ h1, hc.nonneg _ h2⟩

omit h hc hw in
include hg hlabels in
theorem fetch?_labelOf (ht : Graph.Reaches c.succs t.toNat) : fetch? labels (labelOf gr t) =
      some (some (offset (g.sections gr) (gr.rpo.idxOf t.toNat))) := by
  rw [labelOf_eq hg ht, fetch?_natCast]
  refine hlabels _ ?_
  rw [sections, List.length_append, length_blockSections]
  exact Nat.lt_add_right _ (List.idxOf_lt_length_iff.2 ((hg.order.mem _).2 ht))

include hg hlabels

theorem placed_goOn (hl : Graph.Reaches c.succs l) (ht : 0 ≤ t ∧ t < c.size)
    (e : Graph.Edge c.succs l t.toNat) (hx : x ∈ g.goOn gr l t next) : Placed labels x := by
  rcases List.mem_append.1 hx with hx | hx
  · exact placed_copies h hc hw hl ht e hx
  · split at hx
    · cases hx
    · rw [List.mem_singleton.1 hx]
      exact .jump (fetch?_labelOf hg hlabels (hl.step e))

omit hw in
/-- The label of a branch is placed at the copies for its edge, or at its target if there are none. -/
theorem branchLabel_placed (hl : Graph.Reaches c.succs l)
    (he : (c.block l).exit = some (.branch y yes no)) (hne : yes ≠ no) :
    ∃ i, fetch? labels (g.branchLabel gr l yes) = some (some (offset (g.sections gr) i)) ∧
      (c.moves l yes.toNat = [] ∧ i = gr.rpo.idxOf yes.toNat ∨ ∃ s, (g.sections gr)[i]? = some s ∧
          s.text = g.copies l yes ++ [.jump (labelOf gr yes)]) := by
  obtain ⟨hyes, hedge⟩ := hc.edge he (t := yes) (by simp [Exit.targets, hne])
  obtain ⟨position, hsplit⟩ := h.splitEdge?_eq (hc.reaches_lt hl) he
  rcases branchLabel_cases (g := g) hg hl yes with ⟨i, s, hs, hi, hlab⟩ | ⟨hnone, hlab⟩
  · have hget : (g.sections gr)[gr.rpo.length + i]? = some (g.edgeSection gr s) := by
      rw [sections, List.getElem?_append_right (by rw [length_blockSections]; omega),
        length_blockSections, Nat.add_sub_cancel_left, List.getElem?_map, hi]
      rfl
    rw [hsplit] at hs
    split at hs
    · cases hs
      refine ⟨gr.rpo.length + i, ?_, .inr ⟨_, hget, ?_⟩⟩
      · rw [hlab, fetch?_natCast]
        exact hlabels _ (List.getElem?_eq_some_iff.1 hget).1
      · simp [edgeSection, Section.text, Function.comp_def]
    · cases hs
  · refine ⟨gr.rpo.idxOf yes.toNat, ?_, .inl ⟨?_, rfl⟩⟩
    · rw [hlab]
      exact fetch?_labelOf hg hlabels (hl.step hedge)
    · rw [hsplit] at hnone
      split at hnone
      · cases hnone
      · rename_i hno
        rw [← h.moves_eq l hyes]
        by_contra hm
        exact hno ⟨hne, hm⟩

theorem placed_exitCode (hl : Graph.Reaches c.succs l) (he : (c.block l).exit = some e)
    (hx : x ∈ g.exitCode gr l next e) : Placed labels x := by
  have hreads : ∀ y ∈ e.reads, 0 ≤ y := fun y hy => by
    obtain ⟨p, hp, -⟩ := hw.exits l hl e he y hy
    exact hc.nonneg y (by rw [hp]; exact Option.some_ne_none p)
  have hgo := fun t (ht : t ∈ e.targets) => hc.edge he ht
  cases e with
  | ret y =>
    rw [List.mem_singleton.1 hx]
    refine ⟨⟨fun r hr => hreads r ?_, by simp, by simp⟩, by simp [Machine.Instr.target?]⟩
    cases y with
    | none => exact hr
    | some y => exact hr
  | jump t =>
    obtain ⟨ht, hedge⟩ := hgo t (List.mem_singleton.2 rfl)
    exact placed_goOn h hc hw hg hlabels hl ht hedge hx
  | branch y yes no =>
    simp only [exitCode] at hx
    split at hx
    · rename_i heq
      obtain ⟨ht, hedge⟩ := hgo yes (by simp [Exit.targets, heq])
      exact placed_goOn h hc hw hg hlabels hl ht hedge hx
    rename_i hne
    rcases List.mem_cons.1 hx with rfl | hx
    · obtain ⟨i, hi, -⟩ := branchLabel_placed h hc hg hlabels hl he hne
      exact ⟨⟨fun r hr => hreads r hr, by simp, by simp⟩, fun _ hl => Option.some.inj hl ▸ ⟨_, hi⟩⟩
    · obtain ⟨ht, hedge⟩ := hgo no (by simp [Exit.targets, hne])
      exact placed_goOn h hc hw hg hlabels hl ht hedge hx

theorem placed_text (hx : x ∈ (g.sections gr).flatMap Section.text) : Placed labels x := by
  obtain ⟨s, hs, hx⟩ := List.mem_flatMap.1 hx
  rcases List.mem_append.1 hs with hs | hs
  · obtain ⟨i, hi⟩ := List.mem_iff_getElem?.1 hs
    rw [blockSections_getElem?] at hi
    obtain ⟨l, hl, rfl⟩ := Option.map_eq_some_iff.1 hi
    have hr := (hg.order.mem l).1 (List.mem_of_getElem? hl)
    obtain ⟨e, he⟩ := Option.ne_none_iff_exists'.1 (hw.ended l hr)
    rw [h.blockSection_text (hc.reaches_lt hr) he] at hx
    rcases List.mem_append.1 hx with hx | hx
    · obtain ⟨a, ha, rfl⟩ := List.mem_map.1 hx
      exact placed_line hc ha
    · exact placed_exitCode h hc hw hg hlabels hr he hx
  · obtain ⟨d, hd, rfl⟩ := List.mem_map.1 hs
    obtain ⟨l, hl, hsplit⟩ := List.mem_filterMap.1 hd
    have hr := (hg.order.mem l).1 hl
    obtain ⟨y, no, he, hne⟩ := h.splitEdge?_some (hc.reaches_lt hr) hsplit
    obtain ⟨ht, hedge⟩ := hc.edge he (t := d.target) (by simp [Exit.targets, hne])
    have hx : x ∈ g.copies l d.target ++ [.jump (labelOf gr d.target)] := by
      rw [← splitEdge?_source hsplit]
      simpa [edgeSection, Section.text, Function.comp_def] using hx
    rcases List.mem_append.1 hx with hx | hx
    · exact placed_copies h hc hw hr ht hedge hx
    · rw [List.mem_singleton.1 hx]
      exact .jump (fetch?_labelOf hg hlabels (hr.step hedge))

end Assembling

theorem exitCode_ends (g : MachineDraft) (gr : Graph) (l : Label) (e : Exit) :
    ∃ xs x, g.exitCode gr l none e = xs ++ [x] ∧ x.isTerminator = true := by
  have hgo : ∀ t, ∃ xs x, g.goOn gr l t none = xs ++ [x] ∧ x.isTerminator = true :=
    fun t => ⟨g.copies l t, .jump (labelOf gr t), by simp [goOn], rfl⟩
  cases e with
  | ret x => exact ⟨[], .ret x, rfl, rfl⟩
  | jump t => exact hgo t
  | branch y yes no =>
    simp only [exitCode]
    split
    · exact hgo yes
    · obtain ⟨xs, x, hx, ht⟩ := hgo no
      exact ⟨_ :: xs, x, by rw [hx]; rfl, ht⟩

/-- The last section ends, whichever it is. -/
theorem sections_end (h : g.Draws c) (hc : c.Consistent) (hw : c.WellFormed)
    (hg : gr.Describes c.size c.succs) :
    ∃ xs x, (g.sections gr).flatMap Section.text = xs ++ [x] ∧ x.isTerminator = true := by
  suffices hlast : ∃ ss s, g.sections gr = ss ++ [s] ∧
      ∃ xs x, s.text = xs ++ [x] ∧ x.isTerminator = true by
    obtain ⟨ss, s, hss, xs, x, hx, ht⟩ := hlast
    exact ⟨ss.flatMap Section.text ++ xs, x, by rw [hss]; simp [hx], ht⟩
  rcases List.eq_nil_or_concat (g.splitEdges gr) with hnil | ⟨ds, d, hds⟩
  · have hne : g.blockSections gr gr.rpo ≠ [] := by
      intro hnil
      have hlen := length_blockSections g gr gr.rpo
      have hpos := List.length_pos_of_mem hg.order.entry_mem
      rw [hnil, List.length_nil] at hlen
      omega
    obtain ⟨ss, s, hss⟩ := (List.eq_nil_or_concat (g.blockSections gr gr.rpo)).resolve_left hne
    have hlen : gr.rpo.length = ss.length + 1 := by
      rw [← length_blockSections g gr, hss]
      simp
    have hget := blockSections_getElem? g gr gr.rpo ss.length
    rw [hss, ← hlen, List.getElem?_eq_none (l := gr.rpo) le_rfl] at hget
    simp only [List.concat_eq_append, List.getElem?_concat_length] at hget
    obtain ⟨l, hl, rfl⟩ := Option.map_eq_some_iff.1 hget.symm
    have hr := (hg.order.mem l).1 (List.mem_of_getElem? hl)
    obtain ⟨e, he⟩ := Option.ne_none_iff_exists'.1 (hw.ended l hr)
    obtain ⟨xs, x, hx, ht⟩ := exitCode_ends g gr l e
    refine ⟨ss, g.blockSection gr l none, ?_, (c.block l).code.map Act.instr ++ xs, x, ?_, ht⟩
    · rw [sections, hnil, hss]
      simp
    · rw [h.blockSection_text (hc.reaches_lt hr) he, hx, List.append_assoc]
  · refine ⟨g.blockSections gr gr.rpo ++ ds.map (g.edgeSection gr), g.edgeSection gr d, ?_,
      g.copies d.source d.target, .jump (labelOf gr d.target), ?_, rfl⟩
    · rw [sections, hds]
      simp
    · simp [edgeSection, Section.text, Function.comp_def]

/-! ## Where the code stands -/

/-- The place where the code of a block begins. -/
def startOf (g : MachineDraft) (gr : Graph) (l : Label) : Nat :=
  offset (g.sections gr) (gr.rpo.idxOf l)

/-- The block that is laid out after a block. -/
def nextOf (gr : Graph) (l : Label) : Option Label :=
  gr.rpo[gr.rpo.idxOf l + 1]?

/-- The object holds the code of all reached blocks and of the edges between them. -/
structure Laid (g : MachineDraft) (c : Chart) (gr : Graph) (o : Machine.Object) : Prop where
  assembled : o.Assembled
  covers : o.Covers
  block : ∀ l e, Graph.Reaches c.succs l → (c.block l).exit = some e →
    o.Has (g.startOf gr l) ((c.block l).code.map Act.instr ++ g.exitCode gr l (nextOf gr l) e)
  next : ∀ l e l', Graph.Reaches c.succs l → (c.block l).exit = some e → nextOf gr l = some l' →
    g.startOf gr l' = g.startOf gr l + (c.length l + (g.exitCode gr l (nextOf gr l) e).length) ∧
      gr.rpo.idxOf l < gr.rpo.idxOf l'
  label : ∀ t : BlockId, Graph.Reaches c.succs t.toNat →
    fetch? o.labels (labelOf gr t) = some (some (g.startOf gr t.toNat))
  branch : ∀ l y yes no, Graph.Reaches c.succs l → (c.block l).exit = some (.branch y yes no) →
    yes ≠ no → ∃ n, fetch? o.labels (g.branchLabel gr l yes) = some (some n) ∧
      (c.moves l yes.toNat = [] ∧ n = g.startOf gr yes.toNat ∨
        o.Has n (g.copies l yes ++ [.jump (labelOf gr yes)]))

/-- The code of a draft that describes a well-formed chart can be assembled. -/
theorem Draws.assemble_ok (h : g.Draws c) (hc : c.Consistent) (hw : c.WellFormed)
    (hg : gr.Describes c.size c.succs) (next : Reg → Reg) :
    ∃ o, (g.layOut gr).assemble next = .ok o ∧ ((∀ r, r < next r) → g.Laid c gr o) := by
  obtain ⟨htext, herror, hlabels⟩ := g.layOut_spec gr
  have hplaced := fun x (hx : x ∈ (g.layOut gr).text.toList) => placed_text h hc hw hg hlabels (htext ▸ hx)
  obtain ⟨xs, x, hend, hterm⟩ := sections_end h hc hw hg
  have hlast : ((g.layOut gr).text.back?.map Machine.Instr.isTerminator).getD false = true := by
    rw [← Array.getLast?_toList, htext, hend, List.getLast?_concat]
    exact hterm
  obtain ⟨o, ho, hotext, holabels, hass, hcovers⟩ := Machine.Assembler.assemble_ok next herror hlast
    (fun x hx => (hplaced x hx).encodable) fun x hx => (hplaced x hx).target
  have hhas : ∀ (i : Nat) s, (g.sections gr)[i]? = some s →
      o.Has (offset (g.sections gr) i) s.text := by
    intro i s hs j x hx
    rw [hotext, ← Array.getElem?_toList, htext]
    exact getElem?_flatMap hs hx
  have hsection : ∀ l, Graph.Reaches c.succs l →
      (g.sections gr)[gr.rpo.idxOf l]? = some (g.blockSection gr l (nextOf gr l)) := by
    intro l hl
    have hidx := List.idxOf_lt_length_iff.2 ((hg.order.mem l).2 hl)
    rw [sections, List.getElem?_append_left (by rwa [length_blockSections]),
      blockSections_getElem?, List.getElem?_eq_getElem hidx, List.getElem_idxOf hidx]
    rfl
  refine ⟨o, ho, fun hnext => ⟨hass, hcovers fun _ _ r _ => hnext r, fun l e hl he => ?_, fun l e l' hl he hn => ?_,
    fun t ht => ?_, fun l y yes no hl he hne => ?_⟩⟩
  · rw [← h.blockSection_text (hc.reaches_lt hl) he]
    exact hhas _ _ (hsection l hl)
  · obtain ⟨hlt, hget⟩ := List.getElem?_eq_some_iff.1 hn
    have hidx : gr.rpo.idxOf l' = gr.rpo.idxOf l + 1 := by
      rw [← hget]
      exact hg.order.nodup.idxOf_getElem _ hlt
    rw [startOf, startOf, hidx, offset_succ (hsection l hl),
      h.blockSection_text (hc.reaches_lt hl) he, List.length_append, List.length_map]
    exact ⟨rfl, Nat.lt_succ_self _⟩
  · rw [holabels]
    exact fetch?_labelOf hg hlabels ht
  · obtain ⟨i, hi, hcase⟩ := branchLabel_placed h hc hg hlabels hl he hne
    refine ⟨_, holabels ▸ hi, hcase.imp (fun hm => ⟨hm.1, by rw [hm.2]; rfl⟩) ?_⟩
    rintro ⟨s, hs, hstext⟩
    rw [← hstext]
    exact hhas i s hs

end MachineDraft

end Codesmith.Gen
