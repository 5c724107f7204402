import Codesmith.Proofs.Ssa.Verify
import Codesmith.Gen.SsaDraft

/-!
# Compiled functions

A function that draws a well-formed chart compiles without an error. Each reached block becomes the
commands of its lines and an exit whose edges carry the copies that the chart asks for.
-/

namespace Codesmith.Gen

/-- The command of a line. Arguments need none. -/
def Act.command? : Act → Option Ssa.Command
  | .compute out c => some (.compute out.toNat c)
  | .arg .. => none
  | .store k p x => some (.store k p x)

end Codesmith.Gen

namespace Codesmith.Ssa

open Gen (Act Chart ChartBlock Home)
variable {r : Registers}

namespace Command

def reads : Command → List Ref
  | compute _ value => value.reads
  | store _ p x => [p, x]

/-- The register that a command writes. -/
def out? : Command → Option Nat
  | compute out _ => some out
  | store .. => none

end Command

namespace Func

variable {f : Func} {c : Chart} {gr : Graph}

theorem command_eq {id : Nat} {e : Entry} {a : Act} (h : e.expr.act f.tyOf id e.ty = some a) :
    f.command id e = .ok a.command? := by
  obtain ⟨x, t, position, l⟩ := e
  cases x <;> first | (cases h; rfl) | cases h

theorem commands_eq {ids : List Nat} {as : List Act} (h : ids.map f.act? = as.map some) :
    f.commands ids = .ok (as.filterMap Act.command?) := by
  induction ids generalizing as with
  | nil =>
    cases as with
    | nil => rfl
    | cons a as => cases h
  | cons id ids ih =>
    cases as with
    | nil => cases h
    | cons a as =>
      rw [List.map_cons, List.map_cons, List.cons.injEq] at h
      obtain ⟨e, he, hact⟩ := Option.bind_eq_some_iff.1 h.1
      simp only [commands, he, command_eq hact, ih h.2, Except.map]
      cases hc : a.command? <;> simp [hc]

def compiled (f : Func) (l : Label) (cb : ChartBlock) : CompiledBlock where
  code := cb.code.filterMap Act.command?
  exit := match cb.exit with
    | some e => f.exit l e.expr
    | none => .ret none

theorem compileBlock_eq {l : Label} {b : Block} {cb : ChartBlock} (hs : f.Shows b cb) :
    f.compileBlock l b = .ok (f.compiled l cb) := by
  rw [compileBlock, commands_eq hs.code]
  refine congrArg Except.ok (congrArg _ ?_)
  cases ht : b.term with
  | none => rw [hs.term_eq_none_iff.1 ht]; rfl
  | some t =>
    obtain ⟨e, entry, he, hentry, hexpr⟩ := hs.exit_of_term ht
    simp [he, hentry, hexpr]

theorem Draws.compileBlocks_ok (h : f.Draws c) (ls : List Label)
    (hls : ∀ l ∈ ls, Graph.Reaches c.succs l) (start : Nat) (acc : Array CompiledBlock)
    (hsize : acc.size = f.blocks.size) :
    ∃ ranges acc', f.compileBlocks ls start acc = .ok (ranges, acc') ∧
      (∀ r ∈ ranges, r.label ∈ ls) ∧ acc'.size = acc.size ∧
      (∀ l ∈ ls, acc'[l]? = some (f.compiled l (c.block l))) ∧
      ∀ l ∉ ls, acc'[l]? = acc[l]? := by
  induction ls generalizing start acc with
  | nil => exact ⟨[], acc, rfl, by simp, rfl, by simp, fun _ _ => rfl⟩
  | cons l ls ih =>
    obtain ⟨b, hb, hs⟩ := h.block l (hls l List.mem_cons_self)
    have hlt : l < acc.size := hsize ▸ (Array.getElem?_eq_some_iff.1 hb).1
    obtain ⟨ranges, acc', hok, hranges, hsize', hin, hout⟩ :=
      ih (fun k hk => hls k (List.mem_cons_of_mem _ hk)) (start + (b.code.length + 1))
        (acc.setIfInBounds l (f.compiled l (c.block l))) (by rwa [Array.size_setIfInBounds])
    rw [Array.size_setIfInBounds] at hsize'
    refine ⟨⟨l, start, b.code.length + 1⟩ :: ranges, acc',
      by simp only [compileBlocks, hb, compileBlock_eq hs, hok], ?_, hsize', ?_, ?_⟩
    · intro r hr
      rcases List.mem_cons.1 hr with rfl | hr
      · exact List.mem_cons_self
      · exact List.mem_cons_of_mem _ (hranges r hr)
    · intro k hk
      by_cases hmem : k ∈ ls
      · exact hin k hmem
      · obtain rfl : k = l := (List.mem_cons.1 hk).resolve_right hmem
        rw [hout k hmem, Array.getElem?_setIfInBounds, if_pos rfl, if_pos hlt]
    · intro k hk
      rw [List.mem_cons, not_or] at hk
      rw [hout k hk.2, Array.getElem?_setIfInBounds, if_neg (Ne.symm hk.1)]

end Func

/-- The program is that of the chart. -/
structure Program.Compiles (p : Program) (f : Func) (c : Chart) : Prop where
  func : p.func = f
  args : p.args = List.range c.sig.params.length
  regs : p.regs = f.entries.size
  block : ∀ l, Graph.Reaches c.succs l → p.blocks[l]? = some (f.compiled l (c.block l))
  layout : ∀ r ∈ p.layout, Graph.Reaches c.succs r.label

namespace Func

variable {f : Func} {c : Chart} {gr : Graph}
variable {l : Label}

theorem Draws.emit_ok (h : f.Draws c) (hg : gr.Describes c.size c.succs) :
    ∃ p, f.emit gr = .ok p ∧ p.Compiles f c := by
  obtain ⟨ranges, acc, hok, hranges, -, hin, -⟩ := h.compileBlocks_ok gr.rpo
    (fun l => (hg.order.mem l).1) 0 (Array.replicate f.blocks.size ⟨[], .ret none⟩)
    Array.size_replicate
  refine ⟨⟨f, ranges, f.args, f.entries.size, acc⟩, by rw [emit, hok]; rfl, rfl, h.args, rfl,
    fun l hl => hin l ((hg.order.mem l).2 hl), fun r hr => (hg.order.mem _).1 (hranges r hr)⟩

/-! ## Symbols -/

theorem exprText_ok (id : Ref) (h : ∀ e, f.entryOf? id = some e → ∀ x, e.expr = .convert x →
    (f.entryOf? x).isSome = true) : ∃ s, f.exprText id = .ok s := by
  rw [exprText]
  cases he : f.entryOf? id with
  | none => exact ⟨_, rfl⟩
  | some e =>
    have hconv := h e he
    obtain ⟨x, t, position, l⟩ := e
    cases x with
    | convert x =>
      obtain ⟨e', he'⟩ := Option.isSome_iff_exists.1 (hconv x rfl)
      simp only [rhsText, fetch_eq_ok_iff.2 he', Except.map]
      exact ⟨_, rfl⟩
    | ret x => cases x <;> exact ⟨_, rfl⟩
    | _ => exact ⟨_, rfl⟩

/-- Operands of expressions in reached blocks are expressions. -/
theorem Draws.convert_operand (h : f.Draws c) (hc : c.Consistent) {b : Block} (hs : f.Shows b (c.block l))
    (id : Nat) (hid : id ∈ b.code ∨ b.term = some id) {e : Entry} (he : f.entries[id]? = some e) {x : Ref}
    (hx : e.expr = .convert x) : (f.entryOf? x).isSome = true := by
  rcases hid with hid | hid
  · obtain ⟨a, ha, hact⟩ := List.mem_map.1 (hs.code ▸ List.mem_map_of_mem hid)
    obtain ⟨e', he', hexpr⟩ := Option.bind_eq_some_iff.1 hact.symm
    cases he.symm.trans he'
    have hreads := Expr.reads_of_act hexpr
    rw [hx] at hreads
    have hty := (hc.lines l a ha).reads x (hreads ▸ List.mem_singleton.2 rfl)
    obtain ⟨p, hp⟩ := Option.ne_none_iff_exists'.1 (hc.typed x hty)
    obtain ⟨e', he', -⟩ := h.home x p hp
    rw [he']
    rfl
  · obtain ⟨e', entry, -, hentry, hexpr⟩ := hs.exit_of_term hid
    cases he.symm.trans hentry
    rw [hx] at hexpr
    cases e' <;> cases hexpr

theorem Draws.symbols_ok (h : f.Draws c) (hc : c.Consistent) {rs : List BlockRange}
    (hrs : ∀ r ∈ rs, Graph.Reaches c.succs r.label) :
    ∃ symbols, rs.mapM (Gen.SsaDraft.symbol f) = .ok symbols := by
  induction rs with
  | nil => exact ⟨[], rfl⟩
  | cons r rs ih =>
    obtain ⟨symbols, hok⟩ := ih fun r' hr' => hrs r' (List.mem_cons_of_mem _ hr')
    obtain ⟨b, hb, hs⟩ := h.block r.label (hrs r List.mem_cons_self)
    obtain ⟨first, hfirst⟩ : ∃ first, first = b.code.head?.or b.term := ⟨_, rfl⟩
    obtain ⟨s, hs'⟩ := f.exprText_ok ((first.map Int.ofNat).getD noRef) fun e he x hx => by
      cases hid : first with
      | none => rw [hid] at he; cases he
      | some id =>
        rw [hid] at he hfirst
        refine h.convert_operand hc hs id ?_ he hx
        rcases Option.or_eq_some_iff.1 hfirst.symm with hhead | ⟨-, hterm⟩
        · exact .inl (List.mem_of_mem_head? hhead)
        · exact .inr hterm
    rw [List.mapM_cons, Gen.SsaDraft.symbol, hb]
    simp only [← hfirst, hs', hok, bind, Except.bind, pure, Except.pure]
    exact ⟨_, rfl⟩

/-- The copies of an edge are the moves of the chart. -/
theorem Draws.copies_eq (h : f.Draws c) (hc : c.Consistent) (hl : Graph.Reaches c.succs l) {t : BlockId}
    (ht : 0 ≤ t ∧ t < c.size) (hr : Graph.Reaches c.succs t.toNat) :
    ((f.edge l t).copies.map fun p => ((p.1 : Ref), p.2)) = c.moves l t.toNat := by
  obtain ⟨n, rfl⟩ := Int.eq_ofNat_of_zero_le ht.1
  rw [Int.toNat_natCast] at hr ⊢
  obtain ⟨b, hb, hs⟩ := h.block n hr
  rw [edge, Chart.moves, ← hs.phis]
  simp only [fetch?_natCast, hb, Option.map_some, Option.getD_some, List.map_flatMap, List.flatMap_map]
  refine List.flatMap_congr fun id hid => ?_
  have hhome := (hc.phi n id).1 (hs.phis ▸ List.mem_map_of_mem hid)
  rw [branches, h.phi id n hhome hr, Option.getD_some, List.filterMap_map, List.filterMap_filter,
    List.map_filterMap]
  refine List.filterMap_congr fun e _ => ?_
  simp only [Function.comp, branchOf]
  by_cases hsource : e.source = (l : Int)
  · have : f.reachable e.source = true := by rw [hsource]; exact (h.reach l).2 hl
    by_cases href : e.ref = (id : Int) <;> simp [hsource, (h.reach l).2 hl, href]
  · simp [hsource]

end Func

/-! ## Taking an edge -/

theorem writeAll_ok {ws : List (Nat × Word)} (hws : ∀ w ∈ ws, w.1 < r.size) :
    ∃ r', writeAll ws r = .ok r' ∧ r'.size = r.size ∧
      (∀ x : Ref, (∀ w ∈ ws, x ≠ w.1) → r'.read x = r.read x) ∧
      ((ws.map Prod.fst).Nodup → ∀ w ∈ ws, r'.read w.1 = w.2) := by
  induction ws generalizing r with
  | nil => exact ⟨r, rfl, rfl, fun _ _ => rfl, nofun⟩
  | cons w ws ih =>
    have hlt := hws w List.mem_cons_self
    obtain ⟨r', hok, hsize, hkeep, hwrite⟩ := ih (r := r.setIfInBounds w.1 w.2) fun u hu => by
      rw [Array.size_setIfInBounds]
      exact hws u (List.mem_cons_of_mem _ hu)
    rw [Array.size_setIfInBounds] at hsize
    refine ⟨r', by rw [writeAll, write_natCast r hlt]; exact hok, hsize, fun x hx => ?_, fun hnd u hu => ?_⟩
    · rw [hkeep x fun u hu => hx u (List.mem_cons_of_mem _ hu), Registers.read_set hlt,
        Function.update_of_ne (hx w List.mem_cons_self)]
    · rw [List.map_cons, List.nodup_cons] at hnd
      rcases List.mem_cons.1 hu with rfl | hu
      · rw [hkeep u.1 fun w' hw' he => ?_, Registers.read_set hlt, Function.update_self]
        exact hnd.1 (Int.natCast_inj.1 he ▸ List.mem_map_of_mem hw')
      · exact hwrite hnd.2 u hu

/-- Taking an edge moves all its words at once. -/
theorem Edge.take_ok {e : Edge} (hcopies : ∀ p ∈ e.copies, p.1 < r.size ∧ 0 ≤ p.2 ∧ p.2 < r.size)
    (hnd : (e.copies.map Prod.fst).Nodup) :
    ∃ r', e.take r = .ok r' ∧ r'.size = r.size ∧ (∀ p ∈ e.copies, r'.read p.1 = r.read p.2) ∧
      ∀ x : Ref, (∀ p ∈ e.copies, x ≠ p.1) → r'.read x = r.read x := by
  have hread : e.copies.mapM (fun p => fetch r p.2) = .ok (e.copies.map fun p => r.read p.2) := by
    revert hcopies
    induction e.copies with
    | nil => exact fun _ => rfl
    | cons p ps ih =>
      intro hcopies
      obtain ⟨-, h0, h1⟩ := hcopies p List.mem_cons_self
      rw [List.mapM_cons, Registers.fetch_eq_read h0 h1, ih fun q hq => hcopies q (List.mem_cons_of_mem _ hq)]
      rfl
  have hzip : (e.copies.map Prod.fst).zip (e.copies.map fun p => r.read p.2) =
      e.copies.map fun p => (p.1, r.read p.2) := by
    rw [List.zip_map']
  have hmem : ∀ {P : Nat × Word → Prop}, (∀ w ∈ e.copies.map fun p => (p.1, r.read p.2), P w) ↔
      ∀ p ∈ e.copies, P (p.1, r.read p.2) := List.forall_mem_map
  obtain ⟨r', hok, hsize, hkeep, hwrite⟩ := writeAll_ok (r := r) (hmem.2 fun p hp => (hcopies p hp).1)
  refine ⟨r', ?_, hsize, hmem.1 (hwrite ?_), fun x hx => hkeep x (hmem.2 hx)⟩
  · rw [take, hread]
    simp only [bind, Except.bind, hzip]
    exact hok
  · rwa [List.map_map]

end Codesmith.Ssa
