import Codesmith.Proofs.Chart.Discipline
import Codesmith.Proofs.Ssa.Run

/-!
# Programs, command by command

`Program.step` executes a whole block. What a run reads and writes is seen between the commands, so
`Program.advance` executes one command, or leaves the block. Both end alike, and the smaller steps follow
the chart line by line. The arguments are in place before the first command, and no block leads back to the
entry, so a compiled function ends as its chart does.
-/

namespace Codesmith.Ssa

open Gen (Act Chart ChartBlock Home)

namespace Exit

def taken? (r : Registers) : Exit → Option Edge
  | jump e => some e
  | branch c yes no =>
    match fetch r c with
    | .error _ => none
    | .ok w => some (if w.isTrue then yes else no)
  | ret _ => none

/-- The register that an exit itself reads. -/
def operand? : Exit → Option Ref
  | jump _ => none
  | branch c _ _ => some c
  | ret x => x

/-- The copies that happen when a block is left. -/
def copies (r : Registers) (x : Exit) : List (Nat × Ref) :=
  ((x.taken? r).map Edge.copies).getD []

end Exit

namespace Program

variable {s : State} {l : Label} {a : Act} {t : Point} {x : Exit} {e : Gen.Exit}

/-- The state of a run before a command of a block, or before its exit. -/
structure Point where
  block : Int
  place : Nat
  regs : Registers
  memory : Memory

/-- The point before the first command of a block. -/
def State.point (s : State) : Point :=
  ⟨s.block, 0, s.regs, s.memory⟩

/-- One command is executed, or the block is left. -/
def advance (p : Program) (t : Point) : Step Point :=
  match fetch p.blocks t.block with
  | .error f => .fault f t.memory
  | .ok blk =>
    match blk.code[t.place]? with
    | some cmd =>
      match cmd.exec t.regs t.memory with
      | .error (f, m) => .fault f m
      | .ok (r, m) => .next ⟨t.block, t.place + 1, r, m⟩
    | none =>
      match leave t.regs t.memory blk.exit with
      | .next s => .next s.point
      | .done w m => .done w m
      | .fault f m => .fault f m

/-- The registers that are read next. Copies read theirs when the block is left. -/
def readsAt (p : Program) (t : Point) : List Reg :=
  match fetch? p.blocks t.block with
  | none => []
  | some blk =>
    match blk.code[t.place]? with
    | some cmd => cmd.reads
    | none => blk.exit.operand?.toList ++ (blk.exit.copies t.regs).map Prod.snd

/-- The registers that are written next. -/
def writesAt (p : Program) (t : Point) : List Reg :=
  match fetch? p.blocks t.block with
  | none => []
  | some blk =>
    match blk.code[t.place]? with
    | some cmd => cmd.out?.toList.map Int.ofNat
    | none => (blk.exit.copies t.regs).map fun q => (q.1 : Reg)

/-- The program, with what its commands and exits read and write. Edges take no steps of their own. -/
abbrev watched (p : Program) : Watched Point where
  step := p.advance
  regs := Point.regs
  reads := p.readsAt
  writes := p.writesAt
  OnEdge _ := False

/-! ## Blocks and their commands -/

variable {p : Program} {b : Int} {blk : CompiledBlock} {i : Nat} {r : Registers} {m : Memory}

section

variable (hb : fetch p.blocks b = .ok blk)
include hb

theorem advance_command {cmd : Command} (hcmd : blk.code[i]? = some cmd) : p.advance ⟨b, i, r, m⟩ =
      match cmd.exec r m with
      | .error (f, m') => .fault f m'
      | .ok (r', m') => .next ⟨b, i + 1, r', m'⟩ := by
  simp only [advance, hb, hcmd]

theorem advance_exit (hi : blk.code[i]? = none) : p.advance ⟨b, i, r, m⟩ =
      match leave r m blk.exit with
      | .next s => .next s.point
      | .done w m' => .done w m'
      | .fault f m' => .fault f m' := by
  simp only [advance, hb, hi]

/-- The last commands of a block, one by one. -/
theorem advance_commands (cs : List Command) (hcs : blk.code.drop i = cs) : match execAll cs r m with
    | .error (f, m') => Ends p.advance ⟨b, i, r, m⟩ (.fault f m')
    | .ok (r', m') => Walks p.advance cs.length ⟨b, i, r, m⟩ ⟨b, i + cs.length, r', m'⟩ := by
  induction cs generalizing i r m with
  | nil => exact .refl _
  | cons cmd cs ih =>
    have hcmd : blk.code[i]? = some cmd := by
      rw [← List.head?_drop, hcs]
      rfl
    have hdrop : blk.code.drop (i + 1) = cs := by
      rw [← List.tail_drop, hcs]
      rfl
    have hstep := advance_command (r := r) (m := m) hb hcmd
    rw [execAll]
    cases hexec : cmd.exec r m with
    | error e =>
      rw [hexec] at hstep
      exact .stop (congrArg Step.end? hstep)
    | ok q =>
      rw [hexec] at hstep
      have hrest := ih hdrop (r := q.1) (m := q.2)
      revert hrest
      dsimp only
      cases execAll cs q.1 q.2 with
      | error e => exact fun h => .next hstep h
      | ok q' =>
        intro h
        rw [List.length_cons, Nat.add_comm cs.length, ← Nat.add_assoc, Nat.add_comm 1]
        exact .next hstep h

end

/-- The steps through blocks are made of steps through their commands. -/
theorem simulates_advance (p : Program) : Simulates p.step p.advance (fun s t => t = s.point) fun _ => 0 := by
  refine ⟨?_, ?_⟩
  · rintro ⟨b, r, m⟩ _ s' rfl hs
    simp only [step] at hs
    split at hs
    · cases hs
    rename_i blk hb
    split at hs
    · cases hs
    rename_i r' m' hexec
    have hwalk := advance_commands (i := 0) (r := r) (m := m) hb blk.code List.drop_zero
    rw [hexec, Nat.zero_add] at hwalk
    have hexit := advance_exit (r := r') (m := m') hb (List.getElem?_eq_none le_rfl)
    rw [hs] at hexit
    exact ⟨_, _, hwalk.trans (.one hexit), rfl, by simp⟩
  · rintro ⟨b, r, m⟩ _ o rfl hs
    simp only [step] at hs
    split at hs
    · rename_i f hb
      refine .stop (.trans ?_ hs)
      simp only [advance, State.point, hb]
      rfl
    · rename_i blk hb
      have hwalk := advance_commands (i := 0) (r := r) (m := m) hb blk.code List.drop_zero
      split at hs
      · rename_i f m' hexec
        rw [hexec] at hwalk
        cases hs
        exact hwalk
      · rename_i r' m' hexec
        rw [hexec, Nat.zero_add] at hwalk
        refine hwalk.ends (.stop ?_)
        rw [advance_exit hb (List.getElem?_eq_none le_rfl), ← hs]
        cases hleave : leave r' m' blk.exit with
        | next s' => rw [hleave] at hs; cases hs
        | done w m' => rfl
        | fault f m' => rfl

theorem ends_advance_iff {o : Outcome Word} : Ends p.step s o ↔ Ends p.advance s.point o :=
  p.simulates_advance.ends_iff rfl

/-! ## Commands and lines -/

variable {f : Func} {c : Chart} (args : Array Word)

/-- The program and the chart are before the same line, and the registers hold the values. -/
structure Points (f : Func) (c : Chart) (s : Chart.State) (t : Point) : Prop where
  reached : c.Reached s
  block : t.block = s.block
  place : s.place = firstPlace c s.block + t.place
  holds : Holds f t.regs s.values
  memory : t.memory = s.memory

/-- The arguments are in place before the first command. -/
theorem Compiles.points_start (hp : p.Compiles f c) (h : f.Draws c) (hc : c.Consistent)
    (hargs : args.size = c.sig.params.length) (m : Memory) :
    ∃ r s, placeArgs args 0 p.args (Array.replicate p.regs Word.zero) = .ok r ∧
      Walks (c.step args) c.sig.params.length (Chart.start m) s ∧ s.block = Graph.entry ∧
      s.place = c.sig.params.length ∧ Points f c s ⟨(Graph.entry : Int), 0, r, m⟩ := by
  have hr : Holds f (Array.replicate f.entries.size Word.zero) fun _ => Word.zero :=
    ⟨Array.size_replicate, Registers.read_replicate _⟩
  obtain ⟨r, v, hplaced, hr', hwalk⟩ := placeArgs_ok args h hc hargs c.sig.params.length (Nat.zero_add _) hr m
  rw [Nat.zero_add] at hwalk
  refine ⟨r, _, ?_, hwalk, rfl, rfl, (Chart.reached_start m).walks hc hwalk, rfl, ?_, hr', rfl⟩
  · rw [hp.args, hp.regs, List.range_eq_range']
    exact hplaced
  · rw [firstPlace, if_pos rfl]
    rfl

theorem getElem?_filterMap {α β : Type} {g : α → Option β} {as : List α} (h : ∀ a ∈ as, g a ≠ none)
    (j : Nat) : (as.filterMap g)[j]? = as[j]?.bind g := by
  induction as generalizing j with
  | nil => rfl
  | cons a as ih =>
    obtain ⟨b, hb⟩ := Option.ne_none_iff_exists'.1 (h a List.mem_cons_self)
    rw [List.filterMap_cons_some hb]
    cases j with
    | zero => exact hb.symm
    | succ j => exact ih (fun a ha => h a (List.mem_cons_of_mem _ ha)) j

/-- The commands of a block stand as the lines after the arguments do. -/
theorem getElem?_compiled (hc : c.Consistent) (l : Label) (j : Nat) : (f.compiled l (c.block l)).code[j]? =
      (c.block l).code[firstPlace c l + j]?.bind Act.command? := by
  obtain ⟨hcode, hcmd⟩ := filterMap_command hc l
  rw [Func.compiled, hcode, getElem?_filterMap hcmd, List.getElem?_drop]

theorem command_of_line (hc : c.Consistent) {j : Nat} (ha : (c.block l).code[firstPlace c l + j]? = some a) :
    ∃ cmd, a.command? = some cmd ∧ cmd.reads = a.reads ∧ cmd.out?.toList.map Int.ofNat = a.out?.toList := by
  cases a with
  | compute out k =>
    have hhome : c.home out ≠ none := by rw [hc.out l _ _ out ha rfl]; exact nofun
    refine ⟨_, rfl, rfl, ?_⟩
    exact congrArg (fun x : Int => [x]) (Int.toNat_of_nonneg (hc.nonneg out hhome))
  | arg out n =>
    obtain ⟨hl, hi, -, hn⟩ := hc.only _ _ _ _ ha
    rw [firstPlace, if_pos hl] at hi
    omega
  | store k p x => exact ⟨_, rfl, rfl, rfl⟩

theorem readsAt_eq (hb : fetch p.blocks b = .ok blk) : p.readsAt ⟨b, i, r, m⟩ =
      match blk.code[i]? with
      | some cmd => cmd.reads
      | none => blk.exit.operand?.toList ++ (blk.exit.copies r).map Prod.snd := by
  simp only [readsAt, fetch_eq_ok_iff.1 hb]

theorem writesAt_eq (hb : fetch p.blocks b = .ok blk) : p.writesAt ⟨b, i, r, m⟩ =
      match blk.code[i]? with
      | some cmd => cmd.out?.toList.map Int.ofNat
      | none => (blk.exit.copies r).map fun q => (q.1 : Reg) := by
  simp only [writesAt, fetch_eq_ok_iff.1 hb]

/-- A command is executed as its line is. -/
theorem Points.line (h : f.Draws c) (hc : c.Consistent) (hp : p.Compiles f c) {s : Chart.State}
    (hs : Points f c s t) (ha : (c.block s.block).code[s.place]? = some a) :
    (p.readsAt t = a.reads ∧ p.writesAt t = a.out?.toList) ∧
      match a.run args s.values s.memory with
      | .error e => p.advance t = .fault e s.memory
      | .ok (v, m) => ∃ t', p.advance t = .next t' ∧ Points f c ⟨s.block, s.place + 1, v, m⟩ t' := by
  obtain ⟨b, i, r, m⟩ := t
  obtain ⟨l, k, v, m'⟩ := s
  obtain ⟨hreached, hblock, hplace, hr, hmemory⟩ := hs
  dsimp only at ha hblock hplace hr hmemory ⊢
  subst hblock hplace hmemory
  obtain ⟨cmd, hcmd, hreads, hout⟩ := command_of_line hc ha
  have hb : fetch p.blocks (l : Int) = .ok (f.compiled l (c.block l)) :=
    fetch_natCast (hp.block l hreached.block)
  have hi : (f.compiled l (c.block l)).code[i]? = some cmd := by
    rw [getElem?_compiled hc, ha]
    exact hcmd
  refine ⟨⟨?_, ?_⟩, ?_⟩
  · rw [readsAt_eq hb, hi]
    exact hreads
  · rw [writesAt_eq hb, hi]
    exact hout
  · have hexec := exec_line args h hc ha hcmd hr m
    rw [advance_command hb hi]
    revert hexec
    cases a.run args v m with
    | error e =>
      intro hexec
      rw [hexec]
    | ok q =>
      rintro ⟨r', hexec, hr'⟩
      simp only [hexec]
      exact ⟨_, rfl, ⟨hreached.block, (List.getElem?_eq_some_iff.1 ha).1⟩, rfl, rfl, hr', rfl⟩

/-! ## Leaving a block -/

theorem taken_of_leave (h : leave r m x = .next s) : ∃ e, x.taken? r = some e ∧ e.target = s.block := by
  have hfollow : ∀ e, follow e r m = .next s → e.target = s.block := by
    intro e he
    unfold follow at he
    split at he
    · cases he
    · rw [← Step.next.inj he]
  cases x with
  | jump e => exact ⟨e, rfl, hfollow e h⟩
  | branch x yes no =>
    simp only [leave] at h
    split at h
    · cases h
    · rename_i w hw
      exact ⟨_, by rw [Exit.taken?, hw], hfollow _ h⟩
  | ret x =>
    cases x with
    | none => cases h
    | some x =>
      simp only [leave] at h
      split at h <;> cases h

theorem eq_edge_of_taken {d : Edge} (h : (f.exit l e.expr).taken? r = some d) : d = f.edge l d.target := by
  cases e with
  | jump t => rw [← Option.some.inj h]; rfl
  | branch x yes no =>
    simp only [Gen.Exit.expr, Func.exit] at h
    split at h
    · rw [← Option.some.inj h]; rfl
    · simp only [Exit.taken?] at h
      split at h
      · cases h
      · rw [← Option.some.inj h]
        split <;> rfl
  | ret x => cases h

/-- The copies that happen are those of the edge that is taken. -/
theorem copies_of_leave (h : leave r m (f.exit l e.expr) = .next s) :
    (f.exit l e.expr).copies r = (f.edge l s.block).copies := by
  obtain ⟨d, hd, htarget⟩ := taken_of_leave h
  rw [Exit.copies, hd, eq_edge_of_taken hd, htarget]
  rfl

theorem copies_of_done {w : Word} {m' : Memory} (h : leave r m x = .done w m') : x.copies r = [] := by
  have hfollow : ∀ e, follow e r m ≠ .done w m' := by
    intro e he
    unfold follow at he
    split at he <;> cases he
  cases x with
  | jump e => exact absurd h (hfollow e)
  | branch x yes no =>
    simp only [leave] at h
    split at h
    · cases h
    · exact absurd h (hfollow _)
  | ret x => rfl

theorem operand_mem_reads {x : Ref} (hx : x ∈ (f.exit l e.expr).operand?.toList) : x ∈ e.reads := by
  cases e with
  | jump t => cases hx
  | branch y yes no =>
    simp only [Gen.Exit.expr, Func.exit] at hx
    split at hx
    · cases hx
    · exact hx
  | ret y =>
    cases y with
    | none => cases hx
    | some y => exact hx

section

variable (h : f.Draws c) (hc : c.Consistent) (hw : c.WellFormed) (hp : p.Compiles f c)
  (hentry : c.EntryOnce)
include h hc hw hp hentry

/-- A block is left as the chart leaves it. What an exit and the copies read is available, and what is
available behind the edge was written. -/
theorem Points.leave {s : Chart.State} (hs : Points f c s t) (hplace : s.place = c.length s.block)
    (he : (c.block s.block).exit = some e) : (∀ x ∈ p.readsAt t, c.Available s.block s.place x) ∧
      ((∃ w m, p.advance t = .done w m ∧ c.leave s e = .done w m) ∨
        ∃ t' s', p.advance t = .next t' ∧ c.leave s e = .next s' ∧ Points f c s' t' ∧
          ∀ x, c.Available s'.block s'.place x → c.Available s.block s.place x ∨ x ∈ p.writesAt t) := by
  obtain ⟨b, i, r, m⟩ := t
  obtain ⟨l, k, v, m'⟩ := s
  obtain ⟨hreached, hblock, hplace', hr, hmemory⟩ := hs
  have hl := hreached.block
  dsimp only at he hplace hblock hplace' hr hmemory hl ⊢
  subst hblock hplace hmemory
  have hb : fetch p.blocks (l : Int) = .ok (f.compiled l (c.block l)) := fetch_natCast (hp.block l hl)
  have hi : (f.compiled l (c.block l)).code[i]? = none := by
    rw [getElem?_compiled hc, ← hplace', List.getElem?_eq_none (by exact le_rfl)]
    rfl
  have hexit : (f.compiled l (c.block l)).exit = f.exit l e.expr := by
    simp [Func.compiled, he]
  have hoperand : ∀ x ∈ (f.exit l e.expr).operand?.toList, c.Available l (c.length l) x := fun x hx =>
    hw.exits l hl e he x (operand_mem_reads hx)
  rw [readsAt_eq hb, writesAt_eq hb, advance_exit hb hi, hi, hexit]
  dsimp only
  rcases leave_exit h hc hw hl he hr (c.length l) m with
    ⟨w, hdone, hdone'⟩ | ⟨t, r', hnext, hnext', h0, hedge, hr'⟩
  · rw [hdone, copies_of_done hdone]
    refine ⟨fun x hx => hoperand x ?_, .inl ⟨w, m, rfl, hdone'⟩⟩
    rwa [List.map_nil, List.append_nil] at hx
  have hlt : t < c.size := Int.toNat_of_nonneg h0 ▸ Int.ofNat_lt.2 (hc.reaches_lt (hl.step hedge))
  have hmoves := h.copies_eq hc hl ⟨h0, hlt⟩ (hl.step hedge)
  rw [hnext, copies_of_leave hnext]
  refine ⟨fun x hx => ?_, .inr ⟨_, _, rfl, hnext', ⟨⟨hl.step hedge, Nat.zero_le _⟩, ?_, ?_, hr', rfl⟩,
    fun x hx => ?_⟩⟩
  · rcases List.mem_append.1 hx with hx | hx
    · exact hoperand x hx
    · obtain ⟨q, hq, rfl⟩ := List.mem_map.1 hx
      exact hw.available_of_mem_moves hl hedge (hmoves ▸ List.mem_map_of_mem hq)
  · exact (Int.toNat_of_nonneg h0).symm
  · have hne : t.toNat ≠ Graph.entry := fun heq => hentry l (heq ▸ hedge)
    rw [Chart.go, firstPlace, if_neg hne]
    rfl
  · refine (hw.available_enter hc hl hedge hx).imp_right fun hx => ?_
    rwa [← hmoves, List.map_map] at hx

/-! ## Runs -/

theorem follows : c.Follows args p.watched (Points f c) fun _ => 0 :=
  Chart.follows_of_lines hc hw Points.reached (fun hs x _ => hs.holds.read x)
    (fun hs ha => hs.line args h hc hp ha)
    fun hs hplace he hW => by
      obtain ⟨hreads, ⟨w, m, hstep, hdone⟩ | ⟨t', s', hstep, hnext, hs', hW'⟩⟩ :=
        hs.leave h hc hw hp hentry hplace he
      · exact .inl ⟨w, m, hdone, hstep, fun x hx => hW x (hreads x hx)⟩
      · exact .inr ⟨s', 1, _, t', hnext, .one (fun x hx => hW x (hreads x hx)) hstep, hs',
          fun x hx => (hW' x hx).imp_left (hW x), nofun, fun i u h0 hi _ => by omega⟩

theorem Compiles.ends_iff (hargs : args.size = c.sig.params.length) (m : Memory) {o : Outcome Word} :
    Ends (c.step args) (Chart.start m) o ↔ o ≠ .unfinished ∧ ∃ fuel, p.run fuel args m = o := by
  obtain ⟨r, s, hplaced, hwalk, -, -, hpoints⟩ := hp.points_start args h hc hargs m
  have hrun : ∀ fuel, p.run fuel args m = iterate p.step fuel ⟨(Graph.entry : Int), r, m⟩ := fun fuel => by
    rw [run, hplaced]
  simp only [hrun]
  rw [← Codesmith.ends_iff, ends_advance_iff]
  exact hwalk.ends_iff.trans ((follows args h hc hw hp hentry).simulates.ends_iff hpoints)

end

end Program

end Codesmith.Ssa
