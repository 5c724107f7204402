import Codesmith.Proofs.Chart.Discipline
import Codesmith.Proofs.Gen.Layout

/-!
# Code for the register machine runs like its chart

Every line of a chart is one instruction. An exit becomes the copies for its edge and a jump, unless the
target is laid out next. A step of the chart may then take no instruction at all; it leads to a later
block in the layout, so this cannot go on.
-/

namespace Codesmith.Gen.MachineDraft

variable {g : MachineDraft} {c : Chart} {gr : Graph} {o : Machine.Object} (args : Array Word)
variable {l : Label} {a : Act} {s : Chart.State} {t : BlockId} {pc : Nat} {r : Registers} {v : Ref → Word}
  {W : Set Reg}

/-- The machine is where the chart is, and its registers hold the values of the chart. -/
structure Matches (g : MachineDraft) (c : Chart) (gr : Graph) (o : Machine.Object) (s : Chart.State)
    (t : Machine.Object.State) : Prop where
  reached : Graph.Reaches c.succs s.block
  pc : t.pc = ((g.startOf gr s.block + s.place : Nat) : Int)
  size : t.regs.size = o.regs
  values : ∀ x, c.home x ≠ none → t.regs.read x = s.values x
  memory : t.memory = s.memory

theorem Draws.lt_defs (h : g.Draws c) {x : Ref} (hx : c.home x ≠ none) : x < g.defs.size := by
  rw [h.home] at hx
  cases hd : fetch? g.defs x with
  | none => exact absurd (by rw [hd]; rfl) hx
  | some d =>
    obtain ⟨n, rfl, hn⟩ := fetch?_eq_some_iff.1 hd
    exact Int.ofNat_lt.2 (Array.getElem?_eq_some_iff.1 hn).1

/-! ## Lines -/

section

variable (hl : g.Laid c gr o)
include hl

theorem Laid.line (hw : c.WellFormed) (hr : Graph.Reaches c.succs l) {i : Nat}
    (ha : (c.block l).code[i]? = some a) : o.text[g.startOf gr l + i]? = some a.instr := by
  obtain ⟨e, he⟩ := Option.ne_none_iff_exists'.1 (hw.ended l hr)
  refine (hl.block l e hr he).left i _ ?_
  rw [List.getElem?_map, ha]
  rfl

/-- The machine executes a line as the chart does. -/
theorem Matches.line (hc : c.Consistent) (hw : c.WellFormed) {t : Machine.Object.State}
    (h : Matches g c gr o s t) (ha : (c.block s.block).code[s.place]? = some a) :
    match a.run args s.values s.memory with
    | .error f => o.step args t = .fault f s.memory
    | .ok (v, m) => ∃ t', o.step args t = .next t' ∧ Matches g c gr o ⟨s.block, s.place + 1, v, m⟩ t' := by
  obtain ⟨l, i, v, m⟩ := s
  obtain ⟨pc, r, m'⟩ := t
  obtain ⟨hreach, hpc, hsize, hvalues, hmemory⟩ := h
  dsimp only at hreach hpc hsize hvalues hmemory ha ⊢
  subst hpc hmemory
  have htext := hl.line hw hreach ha
  have hfits := hc.lines l a (List.mem_of_getElem? ha)
  have hread : ∀ x ∈ a.reads, fetch r x = .ok (v x) := by
    intro x hx
    have hhome := hc.typed x (hfits.reads x hx)
    rw [← hvalues x hhome]
    refine Registers.fetch_eq_read (hc.nonneg x hhome) ?_
    exact hl.covers.lt hsize htext (List.mem_append_right _ (by rwa [Act.reads_instr]))
  have hnext : ∀ (n : Nat) (w : Word), n < r.size →
      Matches g c gr o ⟨l, i + 1, Function.update v n w, m'⟩
        ⟨((g.startOf gr l + i : Nat) : Int) + 1, r.setIfInBounds n w, m'⟩ := by
    intro n w hn
    refine ⟨hreach, rfl, by rw [Array.size_setIfInBounds]; exact hsize, fun x hx => ?_, rfl⟩
    simp only [Registers.read_set hn, Function.update_apply, hvalues x hx]
  have hout : ∀ x, a.out? = some x → ∃ n : Nat, x = n := fun x hx =>
    Int.eq_ofNat_of_zero_le (hc.nonneg x (by rw [hc.out _ _ a x ha hx]; exact nofun))
  cases a with
  | compute out k =>
    obtain ⟨n, rfl⟩ := hout out rfl
    have hlt : n < r.size :=
      Int.ofNat_lt.1 (hl.covers.lt hsize htext (by simp [Act.instr, Machine.Instr.writes]))
    rw [hl.assembled.step_compute hlt htext, Compute.eval_eq_value m' hread, Act.run]
    cases k.value v m' with
    | error f => rfl
    | ok w => exact ⟨_, rfl, hnext n w hlt⟩
  | arg out k =>
    obtain ⟨n, rfl⟩ := hout out rfl
    have hlt : n < r.size :=
      Int.ofNat_lt.1 (hl.covers.lt hsize htext (by simp [Act.instr, Machine.Instr.writes]))
    rw [hl.assembled.step_arg hlt htext, Act.run]
    cases fetch args k with
    | error f => rfl
    | ok w => exact ⟨_, rfl, hnext n w hlt⟩
  | store k p x =>
    rw [hl.assembled.step_store htext, storeFrom, Act.run, Memory.store,
      hread p (by simp [Act.reads]), hread x (by simp [Act.reads])]
    cases hf : m'.storeFault? k (v p) with
    | some f => simp [hf, Except.map]
    | none =>
      simp only [hf, Except.map]
      exact ⟨_, rfl, hreach, rfl, hsize, hvalues, rfl⟩

/-! ## Edges -/

theorem Laid.passes_jump (hx : o.text[pc]? = some (.jump (labelOf gr t))) (ht : Graph.Reaches c.succs t.toNat)
    (r : Registers) (m : Memory) (W : Set Reg) :
    (o.watched args).Passes 1 W ⟨pc, r, m⟩ (W ∪ {x | x ∈ o.writesAt ⟨pc, r, m⟩})
      ⟨(g.startOf gr t.toNat : Int), r, m⟩ := by
  refine .one (fun x (hmem : x ∈ o.readsAt _) => ?_) (hl.assembled.step_jump hx (hl.label t ht))
  rw [Machine.Object.readsAt_eq hx] at hmem
  cases hmem

end

/-- The machine is on an edge, and its registers hold words of their types. -/
def Between (c : Chart) (o : Machine.Object) (v : Ref → Word) (u : Machine.Object.State) : Prop :=
  o.OnEdge u ∧ c.Carries u.regs.read v

theorem Laid.stays_jump (hl : g.Laid c gr o) (hx : o.text[pc]? = some (.jump (labelOf gr t)))
    (ht : Graph.Reaches c.succs t.toNat) (hr : c.Carries r.read v) (m : Memory) :
    (o.watched args).Stays (Between c o v) 1 ⟨pc, r, m⟩ :=
  .cons ⟨⟨_, hx, .inr ⟨_, rfl⟩⟩, hr⟩ (hl.assembled.step_jump hx (hl.label t ht)) (Watched.stays_zero _)

section

variable (h : g.Draws c) (hc : c.Consistent) (hw : c.WellFormed) (hl : g.Laid c gr o)
  (hr : Graph.Reaches c.succs l) (ht : 0 ≤ t ∧ t < c.size) (e : Graph.Edge c.succs l t.toNat)
include h hc hw hl hr ht e

/-- The registers after the copies of an edge hold the values after the edge. What is available behind
the edge was written. -/
theorem passes_edge (hhas : o.Has pc (g.copies l t)) (hsize : r.size = o.regs)
    (hv : ∀ x, c.home x ≠ none → r.read x = v x) (m : Memory) (hW : ∀ x, c.Available l (c.length l) x → x ∈ W) :
    ∃ W' r', (o.watched args).Passes (g.copies l t).length W ⟨pc, r, m⟩ W'
        ⟨((pc + (g.copies l t).length : Nat) : Int), r', m⟩ ∧
      (∀ x, c.Available t.toNat 0 x → x ∈ W') ∧
      (o.watched args).Stays (Between c o v) (g.copies l t).length ⟨pc, r, m⟩ ∧ r'.size = o.regs ∧
      ∀ x, c.home x ≠ none → r'.read x = c.enter l t.toNat v x := by
  have hlt : ∀ n ∈ c.moves l t.toNat, n.1 < g.defs.size ∧ n.2 < g.defs.size := fun n hn =>
    (hw.home_of_mem_moves hc hr e hn).imp h.lt_defs h.lt_defs
  have hnonneg : ∀ n ∈ plan (c.moves l t.toNat) g.defs.size, 0 ≤ n.1 ∧ 0 ≤ n.2 := fun n hn =>
    nonneg_of_mem_plan (Int.natCast_nonneg _) (fun n hn =>
      (hw.home_of_mem_moves hc hr e hn).imp (hc.nonneg _) (hc.nonneg _)) hn
  have hsources : ∀ n ∈ c.moves l t.toNat, n.2 ∈ W := fun n hn => hW n.2 (hw.available_of_mem_moves hr e hn)
  rw [h.copies_eq l ht] at hhas ⊢
  have hfile : ∀ n ∈ plan (c.moves l t.toNat) g.defs.size,
      (0 ≤ n.1 ∧ n.1 < o.regs) ∧ 0 ≤ n.2 ∧ n.2 < o.regs := fun n hn =>
    ⟨⟨(hnonneg n hn).1, (hl.covers.lt_of_has hhas hn).1⟩, (hnonneg n hn).2, (hl.covers.lt_of_has hhas hn).2⟩
  obtain ⟨W', r', hpass, htargets, honEdge, hsize', hread⟩ :=
    hl.assembled.passes_copies args _ hfile hhas hsize m (ordered_plan hsources)
  rw [List.length_map]
  refine ⟨W', r', hpass, fun x hx => ?_, honEdge.imp fun u hu => ⟨hu.1, fun x hx => ?_⟩, hsize',
    fun x hx => hw.eq_enter hr e (fun n hn => ?_) fun hx' => ?_⟩
  · rcases hw.available_enter hc hr e hx with hx | hx
    · exact hpass.subset (hW x hx)
    · obtain ⟨n, hn, rfl⟩ := List.mem_map.1 hx
      obtain ⟨n', hn', heq⟩ := List.mem_map.1 (mem_plan_fst g.defs.size hn)
      exact heq ▸ htargets n' hn'
  · obtain ⟨-, i, hi⟩ := hu
    rw [hi]
    rcases moveAll_take_plan (hw.moves_nodup hc hr e) hlt r.read i (h.lt_defs hx) with hold | ⟨y, hy, hnew⟩
    · exact ⟨x, rfl, hold.trans (hv x hx)⟩
    · exact ⟨y, hw.ty_of_mem_moves hr e hy, hnew.trans (hv y (hw.home_of_mem_moves hc hr e hy).2)⟩
  · rw [hread, (moveAll_plan (hw.moves_nodup hc hr e) hlt _).1 n hn]
    exact hv _ (hw.home_of_mem_moves hc hr e hn).2
  · rw [hread, (moveAll_plan (hw.moves_nodup hc hr e) hlt _).2 x (h.lt_defs hx) hx']
    exact hv x hx

/-- After the code that goes on to a block, the machine is at that block. If this takes no instruction,
the block is laid out next. -/
theorem passes_goOn (hhas : o.Has pc (g.goOn gr l t (nextOf gr l))) (hnext : ∀ l', nextOf gr l = some l' →
      g.startOf gr l' = pc + (g.goOn gr l t (nextOf gr l)).length ∧
        gr.rpo.idxOf l < gr.rpo.idxOf l') (hsize : r.size = o.regs)
    (hv : ∀ x, c.home x ≠ none → r.read x = v x) (m : Memory) (hW : ∀ x, c.Available l (c.length l) x → x ∈ W) :
    ∃ k W' t', (o.watched args).Passes k W ⟨pc, r, m⟩ W' t' ∧
      Matches g c gr o ⟨t.toNat, 0, c.enter l t.toNat v, m⟩ t' ∧
      (∀ x, c.Available t.toNat 0 x → x ∈ W') ∧
      (o.watched args).Stays (Between c o v) k ⟨pc, r, m⟩ ∧
      (k = 0 → gr.rpo.idxOf l < gr.rpo.idxOf t.toNat) := by
  obtain ⟨W', r', hpass, hW', honEdge, hsize', hread⟩ :=
    passes_edge args h hc hw hl hr ht e hhas.left hsize hv m hW
  have hreach := hr.step e
  unfold goOn at hhas hnext
  by_cases hn : (nextOf gr l).map Int.ofNat = some t
  · obtain ⟨l', hl', rfl⟩ := Option.map_eq_some_iff.1 hn
    obtain ⟨hstart, hlt⟩ := hnext l' hl'
    rw [if_pos hn, List.append_nil] at hstart
    refine ⟨_, W', _, hpass, ⟨hreach, ?_, hsize', hread, rfl⟩, hW', honEdge, fun _ => hlt⟩
    exact congrArg (fun n : Nat => (n : Int)) hstart.symm
  · rw [if_neg hn] at hhas
    have hjump := hl.passes_jump args hhas.right.head hreach r' m W'
    refine ⟨_, _, _, hpass.trans hjump, ⟨hreach, rfl, hsize', hread, rfl⟩,
      fun x hx => .inl (hW' x hx), honEdge.trans hpass.walks
        (hl.stays_jump args hhas.right.head hreach (hw.carries_enter hr e hread) m), fun hk => ?_⟩
    omega

end

/-- The machine leaves a block as the chart does. -/
theorem Matches.leave (h : g.Draws c) (hc : c.Consistent) (hw : c.WellFormed) (hl : g.Laid c gr o)
    {t : Machine.Object.State} (hm : Matches g c gr o s t) (hplace : s.place = c.length s.block) {e : Exit}
    (he : (c.block s.block).exit = some e) (hW : ∀ x, c.Available s.block s.place x → x ∈ W) :
    (∀ w m, c.leave s e = .done w m → o.step args t = .done w m ∧ ∀ x ∈ o.readsAt t, x ∈ W) ∧
      (∀ f m, c.leave s e ≠ .fault f m) ∧
      ∀ s', c.leave s e = .next s' → ∃ k W' t', (o.watched args).Passes k W t W' t' ∧
        Matches g c gr o s' t' ∧ (∀ x, c.Available s'.block s'.place x → x ∈ W') ∧
        (∀ i u, 0 < i → i < k → Walks (o.step args) i t u → Between c o s.values u) ∧
        (k = 0 → gr.rpo.idxOf s.block < gr.rpo.idxOf s'.block) := by
  obtain ⟨l, i, v, m⟩ := s
  obtain ⟨pc, r, m'⟩ := t
  obtain ⟨hreach, hpc, hsize, hvalues, hmemory⟩ := hm
  dsimp only at hreach hpc hsize hvalues hmemory hplace he hW
  subst hpc hmemory hplace
  have hhas := (hl.block l e hreach he).right
  rw [List.length_map] at hhas
  change o.Has (g.startOf gr l + c.length l) _ at hhas
  have hreads : ∀ y ∈ e.reads, 0 ≤ y ∧ r.read y = v y ∧ y ∈ W := fun y hy => by
    have ha := hw.exits l hreach e he y hy
    exact ⟨hc.nonneg y ha.home_ne_none, hvalues y ha.home_ne_none, hW y ha⟩
  have hnext := fun l' => hl.next l e l' hreach he
  cases e with
  | ret y =>
    cases y with
    | none =>
      refine ⟨fun w m hd => ?_, by simp [Chart.leave], by simp [Chart.leave]⟩
      obtain ⟨rfl, rfl⟩ := Step.done.inj hd
      refine ⟨hl.assembled.step_ret hhas.head, fun x hx => ?_⟩
      rw [Machine.Object.readsAt_eq hhas.head] at hx
      cases hx
    | some y =>
      obtain ⟨h0, hy, hyW⟩ := hreads y (List.mem_singleton.2 rfl)
      refine ⟨fun w m hd => ?_, by simp [Chart.leave], by simp [Chart.leave]⟩
      obtain ⟨rfl, rfl⟩ := Step.done.inj hd
      have hlt : y < r.size := hl.covers.lt hsize hhas.head (by simp [Machine.Instr.reads])
      refine ⟨by rw [hl.assembled.step_ret_some hlt hhas.head h0, hy], fun x hx => ?_⟩
      rw [Machine.Object.readsAt_eq hhas.head] at hx
      exact List.mem_singleton.1 hx ▸ hyW
  | jump t =>
    refine ⟨by simp [Chart.leave], by simp [Chart.leave], fun s' hs' => ?_⟩
    obtain rfl := Step.next.inj hs'
    obtain ⟨ht, hedge⟩ := hc.edge he (t := t) (List.mem_singleton.2 rfl)
    obtain ⟨k, W', t', hpass, hmatch, hW', hstays, hk⟩ := passes_goOn args h hc hw hl hreach ht hedge
      hhas (fun l' hl' => by rw [Nat.add_assoc]; exact hnext l' hl') hsize hvalues m' hW
    exact ⟨k, W', t', hpass, hmatch, hW', fun i u _ => hstays i u, hk⟩
  | branch y yes no =>
    refine ⟨by simp [Chart.leave], by simp [Chart.leave], fun s' hs' => ?_⟩
    obtain rfl := Step.next.inj hs'
    obtain ⟨h0, hy, hyW⟩ := hreads y (List.mem_singleton.2 rfl)
    by_cases hne : yes = no
    · subst hne
      obtain ⟨ht, hedge⟩ := hc.edge he (t := yes) (by simp [Exit.targets])
      simp only [exitCode, if_true] at hhas hnext
      rw [ite_self]
      obtain ⟨k, W', t', hpass, hmatch, hW', hstays, hk⟩ := passes_goOn args h hc hw hl hreach ht hedge
        hhas (fun l' hl' => by rw [Nat.add_assoc]; exact hnext l' hl') hsize hvalues m' hW
      exact ⟨k, W', t', hpass, hmatch, hW', fun i u _ => hstays i u, hk⟩
    · simp only [exitCode, if_neg hne] at hhas hnext
      obtain ⟨n, hn, hcase⟩ := hl.branch l y yes no hreach he hne
      have hstep : o.step args ⟨_, r, m'⟩ = _ :=
        hl.assembled.step_branch (hl.covers.lt hsize hhas.head (by simp [Machine.Instr.reads])) hhas.head hn h0
      rw [hy] at hstep
      have hcond : ∀ x ∈ o.readsAt ⟨((g.startOf gr l + c.length l : Nat) : Int), r, m'⟩, x ∈ W := by
        rw [Machine.Object.readsAt_eq hhas.head]
        exact fun x hx => List.mem_singleton.1 hx ▸ hyW
      have hW' : ∀ x, c.Available l (c.length l) x → x ∈ W ∪
          {z | z ∈ o.writesAt ⟨((g.startOf gr l + c.length l : Nat) : Int), r, m'⟩} :=
        fun x hx => .inl (hW x hx)
      by_cases htrue : (v y).isTrue = true
      · obtain ⟨ht, hedge⟩ := hc.edge he (t := yes) (by simp [Exit.targets, hne])
        rw [if_pos htrue] at hstep ⊢
        rcases hcase with ⟨hmoves, rfl⟩ | hhas'
        · -- Without copies the branch leads to the block itself.
          have hnone : g.copies l yes = [] := by
            rw [h.copies_eq l ht, hmoves]
            rfl
          have hhas' : o.Has (g.startOf gr yes.toNat) (g.copies l yes) := by
            rw [hnone]
            exact fun i x hx => by simp at hx
          obtain ⟨W', r', hpass, hW'', -, hsize', hread⟩ :=
            passes_edge args h hc hw hl hreach ht hedge hhas' hsize hvalues m' hW'
          rw [hnone] at hpass
          cases hpass
          exact ⟨1, _, _, .one hcond hstep, ⟨hreach.step hedge, rfl, hsize, hread, rfl⟩, hW'',
            fun i u h0 hi _ => by omega, by simp⟩
        · obtain ⟨W', r', hpass, hW'', hstays, hsize', hread⟩ :=
            passes_edge args h hc hw hl hreach ht hedge hhas'.left hsize hvalues m' hW'
          have hjump := hl.passes_jump args hhas'.right.head (hreach.step hedge) r' m' W'
          have hstays' := hstays.trans hpass.walks
            (hl.stays_jump args hhas'.right.head (hreach.step hedge) (hw.carries_enter hreach hedge hread) m')
          exact ⟨_, _, _, .next hcond hstep (hpass.trans hjump),
            ⟨hreach.step hedge, rfl, hsize', hread, rfl⟩, fun x hx => .inl (hW'' x hx),
            fun i u => hstays'.after hstep, by simp⟩
      · obtain ⟨ht, hedge⟩ := hc.edge he (t := no) (by simp [Exit.targets, hne])
        rw [if_neg htrue] at hstep ⊢
        have hnext' : ∀ l', nextOf gr l = some l' → g.startOf gr l' =
            g.startOf gr l + c.length l + 1 + (g.goOn gr l no (nextOf gr l)).length ∧
              gr.rpo.idxOf l < gr.rpo.idxOf l' := fun l' hl' => by
          obtain ⟨hstart, hlt⟩ := hnext l' hl'
          rw [List.length_cons] at hstart
          exact ⟨by omega, hlt⟩
        obtain ⟨k, W', t', hpass, hmatch, hW'', hstays, -⟩ :=
          passes_goOn args h hc hw hl hreach ht hedge hhas.tail hnext' hsize hvalues m' hW'
        exact ⟨k + 1, W', t', .next hcond hstep hpass, hmatch, hW'', fun i u => hstays.after hstep, by simp⟩

/-! ## Runs -/

/-- The machine is where the chart is, and has not left its block. -/
def Runs (g : MachineDraft) (c : Chart) (gr : Graph) (o : Machine.Object) (s : Chart.State)
    (t : Machine.Object.State) : Prop :=
  Matches g c gr o s t ∧ s.place ≤ c.length s.block

theorem Matches.reads_line (hl : g.Laid c gr o) (hw : c.WellFormed) {t : Machine.Object.State}
    (h : Matches g c gr o s t) (ha : (c.block s.block).code[s.place]? = some a) :
    o.readsAt t = a.reads ∧ o.writesAt t = a.out?.toList := by
  obtain ⟨pc, r, m⟩ := t
  have htext := hl.line hw h.reached ha
  have hpc := h.pc
  dsimp only at hpc
  subst hpc
  rw [Machine.Object.readsAt_eq htext, Machine.Object.writesAt_eq htext, Act.reads_instr]
  exact ⟨rfl, by cases a <;> rfl⟩

theorem follows (h : g.Draws c) (hc : c.Consistent) (hw : c.WellFormed)
    (hg : gr.Describes c.size c.succs) (hl : g.Laid c gr o) :
    c.Follows args (o.watched args) (Runs g c gr o) fun s => gr.rpo.length - gr.rpo.idxOf s.block :=
  Chart.follows_of_lines hc hw (fun hr => ⟨hr.1.reached, hr.2⟩) (fun hr x hx => hr.1.values x hx)
    (fun hr ha => ⟨hr.1.reads_line hl hw ha, by
      have hline := hr.1.line args hl hc hw ha
      revert hline
      cases Act.run args _ _ _ with
      | error e => exact id
      | ok q =>
        rintro ⟨t', ht', hm'⟩
        exact ⟨t', ht', hm', (List.getElem?_eq_some_iff.1 ha).1⟩⟩)
    fun {s t e W} hr hplace he hW => by
      obtain ⟨hdone, hfault, hnext⟩ := hr.1.leave args h hc hw hl hplace he hW
      cases hleave : c.leave s e with
      | done w m => exact .inl ⟨w, m, hleave, hdone w m hleave⟩
      | fault f m => exact absurd hleave (hfault f m)
      | next s' =>
        obtain ⟨k, W', t', hpass, hm', hW', hstays, hk⟩ := hnext s' hleave
        have hzero : s'.place = 0 := by
          cases e with
          | jump t => rw [← Step.next.inj hleave]; rfl
          | branch y yes no => rw [← Step.next.inj hleave]; rfl
          | ret y => cases y <;> cases hleave
        refine .inr ⟨s', k, W', t', hleave, hpass, ⟨hm', by omega⟩, hW', fun hk0 => ?_, hstays⟩
        have hlt := List.idxOf_lt_length_iff.2 ((hg.order.mem _).2 hm'.reached)
        have := hk hk0
        dsimp only
        omega

omit args in
theorem runs_start (hg : gr.Describes c.size c.succs) (m : Memory) :
    Runs g c gr o (Chart.start m) (o.start m) := by
  refine ⟨⟨Graph.reaches_entry, ?_, Array.size_replicate, fun x _ => Registers.read_replicate _ x, rfl⟩,
    Nat.zero_le _⟩
  rw [startOf, Chart.start, hg.order.idxOf_entry]
  rfl

theorem Laid.ends_iff (hl : g.Laid c gr o) (h : g.Draws c) (hc : c.Consistent) (hw : c.WellFormed)
    (hg : gr.Describes c.size c.succs) (m : Memory) {out : Outcome Word} :
    Ends (c.step args) (Chart.start m) out ↔ Ends (o.step args) (o.start m) out :=
  (follows args h hc hw hg hl).simulates.ends_iff (runs_start hg m)

/-! ## Finishing -/

/-- The draft after the call that finishes it. -/
def closed (g : MachineDraft) : MachineDraft :=
  { g with draft := { g.draft with finalized := true } }

omit args in
theorem Models.closed_draws (h : g.Models c) : g.closed.Draws c :=
  { h.draws with types := h.draft.types }

omit args in
theorem Models.finalize_eq (h : g.Models c) (hc : c.Consistent) (hb : Graph.build c.size c.succs = .ok gr) :
    g.finalize = .ok (g.closed, (g.closed.verify gr).bind fun () => g.closed.lower gr) := by
  have hd := h.closed_draws
  have hb' : Graph.build g.closed.blocks.size g.closed.succs = .ok gr := by
    rw [hd.size, hd.succs hc, hb]
  rw [finalize, h.draft.finalized]
  simp only [closed, h.draft.error, h.draft.begun] at hb' ⊢
  change (Graph.build _ _).bind _ = _
  rw [hb']
  rfl

omit args in
theorem Models.finalize_ok (h : g.Models c) (hc : c.Consistent) (hw : c.WellFormed) :
    ∃ p gr o, g.finalize = .ok (g.closed, .ok p) ∧ p.image = .machine o ∧
      gr.Describes c.size c.succs ∧ Laid g.closed c gr o := by
  obtain ⟨gr, hb, hg⟩ := hc.build_ok
  obtain ⟨o, ho, hl⟩ := h.closed_draws.assemble_ok hc hw hg (· + 1)
  refine ⟨⟨.machine o, symbols 0 (g.closed.sections gr)⟩, gr, o, ?_, rfl, hg, hl Int.lt_succ⟩
  rw [h.finalize_eq hc hb, (h.closed_draws.verify_iff hc hg).2 hw]
  simp only [Except.bind, lower, ho]

omit args in
theorem Models.finalize_refused (h : g.Models c) (hc : c.Consistent) (hw : ¬ c.WellFormed) :
    ∃ e, g.finalize = .ok (g.closed, .error e) := by
  obtain ⟨gr, hb, hg⟩ := hc.build_ok
  rw [h.finalize_eq hc hb]
  cases hv : g.closed.verify gr with
  | error e => exact ⟨e, rfl⟩
  | ok u => exact absurd ((h.closed_draws.verify_iff hc hg).1 hv) hw

end Codesmith.Gen.MachineDraft
