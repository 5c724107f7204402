import Codesmith.Code.Basic
import Codesmith.Proofs.Gen.Agreement
import Codesmith.Proofs.Machine.Bounds

/-!
# Symbols tile the code

The symbols of an accepted program follow each other without a gap, from the first place to the last. On the
register machine there is one for each reachable block, in reverse postorder, and then one for each split edge;
the range of a symbol holds what was laid out for its block or edge, and its label is placed where it starts. In
single assignment form there is one for each reachable block, with a place for each line and one for the exit.
Ranges may be empty, and the profile leaves these out. What it lists still covers every place once.
-/

namespace Codesmith.Gen

variable {p : Program} {f f' : Ssa.Func}

/-! ## Ranges that follow each other -/

variable {n m a : Nat} {x : Symbol} {xs : List Symbol}

/-- The ranges of the symbols follow each other, from a place up to another. -/
def Abut : Nat → List Symbol → Nat → Prop
  | n, [], m => n = m
  | n, x :: xs, m => x.start = n ∧ Abut (n + x.size) xs m

/-- The place is in the range of the symbol. -/
def Symbol.Covers (x : Symbol) (a : Nat) : Prop :=
  x.start ≤ a ∧ a < x.start + x.size

theorem Abut.filter (h : Abut n xs m) : Abut n (xs.filter fun x => x.size != 0) m := by
  induction xs generalizing n with
  | nil => exact h
  | cons x xs ih =>
    obtain ⟨hstart, hrest⟩ := h
    by_cases hsize : x.size = 0
    · rw [List.filter_cons_of_neg (by simp [hsize])]
      rw [hsize] at hrest
      exact ih hrest
    · rw [List.filter_cons_of_pos (by simp [hsize])]
      exact ⟨hstart, ih hrest⟩

variable {ss : List Section} {s : Section} {i : Nat}

theorem length_text (s : Section) : s.text.length = s.code.length :=
  List.length_map _

theorem abut_symbols (n : Nat) (ss : List Section) :
    Abut n (symbols n ss) (n + (ss.flatMap Section.text).length) := by
  induction ss generalizing n with
  | nil => rfl
  | cons s ss ih =>
    refine ⟨rfl, ?_⟩
    rw [List.flatMap_cons, List.length_append, length_text, ← Nat.add_assoc]
    exact ih (n + s.code.length)

theorem symbols_getElem? (h : ss[i]? = some s) (n : Nat) : ∃ x, (symbols n ss)[i]? = some x ∧
    x.name = s.name ∧ x.start = n + offset ss i ∧ x.size = s.text.length := by
  induction ss generalizing i n with
  | nil => cases h
  | cons s' ss ih =>
    cases i with
    | zero =>
      cases h
      exact ⟨_, rfl, rfl, rfl, (length_text s).symm⟩
    | succ i =>
      obtain ⟨x, hx, hname, hstart, hsize⟩ := ih h (n + s'.code.length)
      refine ⟨x, hx, hname, ?_, hsize⟩
      rw [hstart, offset_cons, length_text, Nat.add_assoc]

/-- A section stands as a whole at its offset. -/
theorem take_drop_offset (h : ss[i]? = some s) :
    ((ss.flatMap Section.text).drop (offset ss i)).take s.text.length = s.text := by
  refine List.ext_getElem? fun j => ?_
  rw [List.getElem?_take]
  split
  · rename_i hj
    rw [List.getElem?_drop, getElem?_flatMap h (List.getElem?_eq_getElem hj), List.getElem?_eq_getElem hj]
  · rw [List.getElem?_eq_none (by omega)]

def Symbol.slice (x : Symbol) (o : Machine.Object) : List Machine.Instr :=
  (o.text.toList.drop x.start).take x.size

/-- The symbols of code for the register machine: one for each block in order, then one for each split edge.
The range of a symbol holds the code for the block or the edge, and the label of the same number is placed at
its start. -/
structure MachineDraft.Symbolized (g : MachineDraft) (gr : Graph) (o : Machine.Object) (xs : List Symbol) :
    Prop where
  length : xs.length = gr.rpo.length + (g.splitEdges gr).length
  abut : Abut 0 xs o.text.size
  label : ∀ (i : Nat) x, xs[i]? = some x → o.labels[i]? = some (some x.start)
  block : ∀ (i : Nat) l, gr.rpo[i]? = some l → labelOf gr l = i ∧ ∃ x b e position, xs[i]? = some x ∧
    g.blocks[l]? = some b ∧ b.exit = some (e, position) ∧ x.name = b.name ∧
    x.slice o = b.code.map Line.instr ++ g.exitCode gr l gr.rpo[i + 1]? e
  edge : ∀ (i : Nat) d, (g.splitEdges gr)[i]? = some d → ∃ x, xs[gr.rpo.length + i]? = some x ∧
    x.name = g.nameOf d.source ++ ">" ++ g.nameOf d.target ∧
    x.slice o = g.copies d.source d.target ++ [.jump (labelOf gr d.target)]

theorem length_symbols (n : Nat) (ss : List Section) : (symbols n ss).length = ss.length := by
  induction ss generalizing n with
  | nil => rfl
  | cons s ss ih => exact congrArg Nat.succ (ih (n + s.code.length))

namespace MachineDraft

variable {g : MachineDraft} {gr : Graph} {o : Machine.Object} {l : Label}

theorem ended_of_verify (hv : g.verify gr = .ok ()) (hl : l ∈ gr.rpo) (hlt : l < g.blocks.size) :
    ∃ b e position, g.blocks[l]? = some b ∧ b.exit = some (e, position) := by
  have hblock := forM_ok_iff.1 hv l hl
  rw [verifyBlock, Array.getElem?_eq_getElem hlt] at hblock
  cases hexit : g.blocks[l].exit with
  | none =>
    simp only [hexit] at hblock
    cases hblock
  | some e => exact ⟨_, e.1, e.2, Array.getElem?_eq_getElem hlt, hexit⟩

theorem blockSection_eq {b : MachineBlock} {e : Exit} {position : Option Position}
    (hb : g.blocks[l]? = some b) (he : b.exit = some (e, position)) (next : Option Label) :
    (g.blockSection gr l next).name = b.name ∧
      (g.blockSection gr l next).text = b.code.map Line.instr ++ g.exitCode gr l next e := by
  obtain ⟨name, phis, code, exit⟩ := b
  cases he
  simp [blockSection, hb, Section.text, Function.comp_def]

theorem symbolized (hg : gr.Describes g.blocks.size g.succs) (hv : g.verify gr = .ok ())
    (ho : (g.layOut gr).assemble (· + 1) = .ok o) : g.Symbolized gr o (symbols 0 (g.sections gr)) := by
  obtain ⟨htext, -, hlabels⟩ := g.layOut_spec gr
  obtain ⟨hotext, holabels, -⟩ := Machine.Assembler.assemble_inv ho
  rw [← hotext] at htext
  rw [← holabels] at hlabels
  have hsection : ∀ {i : Nat} {s : Section}, (g.sections gr)[i]? = some s →
      ∃ x, (symbols 0 (g.sections gr))[i]? = some x ∧ x.name = s.name ∧ x.slice o = s.text := by
    intro i s hs
    obtain ⟨x, hx, hname, hstart, hsize⟩ := symbols_getElem? hs 0
    refine ⟨x, hx, hname, ?_⟩
    rw [Symbol.slice, htext, hstart, hsize, Nat.zero_add, take_drop_offset hs]
  refine ⟨?_, ?_, fun i x hx => ?_, fun i l hl => ?_, fun i d hd => ?_⟩
  · rw [length_symbols, sections, List.length_append, length_blockSections, List.length_map]
  · have := abut_symbols 0 (g.sections gr)
    rwa [Nat.zero_add, ← htext, Array.length_toList] at this
  · have hi : i < (g.sections gr).length := length_symbols 0 _ ▸ (List.getElem?_eq_some_iff.1 hx).1
    obtain ⟨x', hx', -, hstart, -⟩ := symbols_getElem? (List.getElem?_eq_getElem hi) 0
    cases hx.symm.trans hx'
    rw [hlabels i hi, hstart, Nat.zero_add]
  · obtain ⟨hi, rfl⟩ := List.getElem?_eq_some_iff.1 hl
    have hmem : gr.rpo[i] ∈ gr.rpo := List.getElem_mem hi
    obtain ⟨b, e, position, hb, he⟩ := ended_of_verify hv hmem (hg.order.lt _ hmem)
    have hs : (g.sections gr)[i]? = some (g.blockSection gr gr.rpo[i] gr.rpo[i + 1]?) := by
      rw [sections, List.getElem?_append_left (by rwa [length_blockSections]), blockSections_getElem?, hl]
      rfl
    obtain ⟨x, hx, hname, hslice⟩ := hsection hs
    obtain ⟨hname', htext'⟩ := blockSection_eq hb he gr.rpo[i + 1]?
    refine ⟨?_, x, b, e, position, hx, hb, he, hname.trans hname', hslice.trans htext'⟩
    rw [labelOf, Int.toNat_natCast, hg.place _ hmem]
    exact hg.order.nodup.idxOf_getElem _ hi
  · have hs : (g.sections gr)[gr.rpo.length + i]? = some (g.edgeSection gr d) := by
      rw [sections, List.getElem?_append_right (by rw [length_blockSections]; omega), length_blockSections,
        Nat.add_sub_cancel_left, List.getElem?_map, hd]
      rfl
    obtain ⟨x, hx, hname, hslice⟩ := hsection hs
    refine ⟨x, hx, hname, hslice.trans ?_⟩
    simp [edgeSection, Section.text, Function.comp_def]

theorem finalize_symbolized {g' : MachineDraft} (h : g.finalize = .ok (g', .ok p)) :
    ∃ gr o, Graph.build g.blocks.size g.succs = .ok gr ∧ p.image = .machine o ∧
      g.Symbolized gr o p.symbols := by
  rw [finalize] at h
  split at h
  · cases h
  dsimp only at h
  split at h
  · cases h
  split at h
  · cases h
  obtain ⟨gr, hb, h⟩ := bind_eq_ok.1 h
  obtain ⟨rfl, hp⟩ := Prod.mk.inj (Except.ok.inj h)
  obtain ⟨⟨⟩, hv, hp⟩ := bind_eq_ok.1 hp
  rw [lower] at hp
  split at hp
  · cases hp
  · rename_i o ho
    cases hp
    have hs := symbolized (g := g.closed) (Graph.describes_of_build hb) hv ho
    exact ⟨gr, o, hb, rfl, hs.length, hs.abut, hs.label, hs.block, hs.edge⟩

end MachineDraft

/-! ## Single assignment form -/

/-- The symbol has a place for each line of the block and one for the exit. -/
def Symbol.Spans (f : Ssa.Func) (l : Label) (x : Symbol) : Prop :=
  ∃ b, f.blocks[l]? = some b ∧ x.name = b.name ∧ x.size = b.code.length + 1

namespace SsaDraft

theorem ranges_symbolized {ls : List Label} {start : Nat}
    {acc acc' : Array Ssa.CompiledBlock} {rs : List Ssa.BlockRange} (hls : ∀ l ∈ ls, l < f.blocks.size)
    (hrs : f.compileBlocks ls start acc = .ok (rs, acc')) (hxs : rs.mapM (symbol f) = .ok xs) :
    List.Forall₂ (Symbol.Spans f) ls xs ∧ Abut start xs (start + (xs.map Symbol.size).sum) := by
  induction ls generalizing start acc rs xs with
  | nil =>
    cases hrs
    cases hxs
    exact ⟨.nil, rfl⟩
  | cons l ls ih =>
    obtain ⟨b, hb⟩ : ∃ b, f.blocks[l]? = some b := ⟨_, Array.getElem?_eq_getElem (hls l List.mem_cons_self)⟩
    simp only [Ssa.Func.compileBlocks, hb] at hrs
    split at hrs
    · cases hrs
    split at hrs
    · cases hrs
    rename_i ranges acc1 hrest
    cases hrs
    rw [List.mapM_cons] at hxs
    obtain ⟨x, hx, hxs⟩ := bind_eq_ok.1 hxs
    obtain ⟨ys, hys, hxs⟩ := bind_eq_ok.1 hxs
    cases hxs
    obtain ⟨text, -, hx⟩ := bind_eq_ok.1 hx
    cases hx
    obtain ⟨hall, habut⟩ := ih (fun k hk => hls k (List.mem_cons_of_mem l hk)) hrest hys
    refine ⟨.cons ⟨_, hb, ?_, rfl⟩ hall, rfl, ?_⟩
    · simp [Ssa.Func.nameOf, hb]
    · rw [List.map_cons, List.sum_cons, ← Nat.add_assoc start (b.code.length + 1)]
      exact habut

theorem verifyPruned_of_verify {gr : Graph} (h : f.verify = .ok (f', .ok gr)) :
    f'.verifyPruned = .ok (.ok gr) := by
  rw [Ssa.Func.verify] at h
  split at h
  · cases h
  split at h
  · cases h
  dsimp only at h
  split at h
  all_goals
    obtain ⟨f1, -, h⟩ := bind_eq_ok.1 h
    obtain ⟨r, hr, h⟩ := bind_eq_ok.1 h
    cases h
    exact hr

theorem emit_of_compile {q : Ssa.Program} (h : f.compile = .ok (f', .ok q)) :
    ∃ gr, f'.verifyPruned = .ok (.ok gr) ∧ f'.emit gr = .ok q := by
  rw [Ssa.Func.compile] at h
  obtain ⟨f1, -, h⟩ := bind_eq_ok.1 h
  obtain ⟨⟨f2, r2⟩, -, h⟩ := bind_eq_ok.1 h
  cases r2 with
  | error e => cases h
  | ok gr2 =>
    obtain ⟨⟨f3, r3⟩, hv, h⟩ := bind_eq_ok.1 h
    cases r3 with
    | error e => cases h
    | ok gr3 =>
      obtain ⟨rfl, hq⟩ := Prod.mk.inj (Except.ok.inj h)
      exact ⟨gr3, verifyPruned_of_verify hv, hq⟩

theorem finalize_symbolized {g g' : SsaDraft} (h : g.finalize = .ok (g', .ok p)) :
    ∃ q gr, p.image = .ssa q ∧ Graph.build q.func.blocks.size q.func.succsOf = .ok gr ∧
      List.Forall₂ (Symbol.Spans q.func) gr.rpo p.symbols ∧
      Abut 0 p.symbols (p.symbols.map Symbol.size).sum := by
  rw [finalize] at h
  split at h
  · cases h
  dsimp only at h
  split at h
  · cases h
  · cases h
  obtain ⟨⟨f', r⟩, hcompile, h⟩ := bind_eq_ok.1 h
  cases r with
  | error e => cases h
  | ok q =>
    obtain ⟨xs, hxs, h⟩ := bind_eq_ok.1 h
    cases h
    obtain ⟨gr, hv, hq⟩ := emit_of_compile hcompile
    obtain ⟨-, hb, -⟩ := Ssa.Func.verifyPruned_ok_iff.1 hv
    rw [Ssa.Func.emit] at hq
    obtain ⟨⟨rs, acc⟩, hrs, rfl⟩ := map_eq_ok.1 hq
    obtain ⟨hall, habut⟩ := ranges_symbolized (Graph.describes_of_build hb).order.lt hrs hxs
    rw [Nat.zero_add] at habut
    exact ⟨_, gr, rfl, hb, hall, habut⟩

end SsaDraft

/-! ## Accepted programs -/

/-- What the symbols of the program that a generator has finished are made for, and the number of places of the
code. -/
inductive Symbolized : Generator → Program → Nat → Prop
  | machine {g : MachineDraft} {gr : Graph} {o : Machine.Object} {xs : List Symbol}
      (hb : Graph.build g.blocks.size g.succs = .ok gr) (ho : Graph.Order g.succs g.blocks.size gr.rpo)
      (h : g.Symbolized gr o xs) : Symbolized (.machine g) ⟨.machine o, xs⟩ o.text.size
  | ssa {g : SsaDraft} {gr : Graph} {q : Ssa.Program} {xs : List Symbol}
      (hb : Graph.build q.func.blocks.size q.func.succsOf = .ok gr)
      (ho : Graph.Order q.func.succsOf q.func.blocks.size gr.rpo)
      (h : List.Forall₂ (Symbol.Spans q.func) gr.rpo xs) (ha : Abut 0 xs (xs.map Symbol.size).sum) :
      Symbolized (.ssa g) ⟨.ssa q, xs⟩ (xs.map Symbol.size).sum

theorem Symbolized.abut {g : Generator} (h : Symbolized g p n) : Abut 0 p.symbols n := by
  cases h with
  | machine _ _ h => exact h.abut
  | ssa _ _ _ ha => exact ha

theorem Generator.symbolized {g g' : Generator} (h : g.finalize = .ok (g', .ok p)) :
    ∃ n, Symbolized g p n := by
  obtain ⟨image, xs⟩ := p
  cases g with
  | machine d =>
    obtain ⟨⟨d', r⟩, hd, he⟩ := map_eq_ok.1 h
    obtain ⟨rfl, rfl⟩ := Prod.mk.inj he
    obtain ⟨gr, o, hb, rfl, hs⟩ := MachineDraft.finalize_symbolized hd
    exact ⟨_, .machine hb (Graph.describes_of_build hb).order hs⟩
  | ssa d =>
    obtain ⟨⟨d', r⟩, hd, he⟩ := map_eq_ok.1 h
    obtain ⟨rfl, rfl⟩ := Prod.mk.inj he
    obtain ⟨q, gr, rfl, hb, hall, ha⟩ := SsaDraft.finalize_symbolized hd
    exact ⟨_, .ssa hb (Graph.describes_of_build hb).order hall ha⟩

end Codesmith.Gen
