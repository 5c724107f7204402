import Codesmith.Proofs.Gen.Agreement

/-!
# Registers of accepted programs

What a back end accepts reads no register before it is written, and finds in the value at the head of a
block what the last edge into the block carried. Values at the head of the entry are the exception: no
edge leads there, so that both back ends accept them without anything to carry, and they are read though
nothing ever wrote them.
-/

namespace Codesmith.Gen

variable {c : Chart} {x : Ref} {args : Array Word}

/-! ## Where runs start -/

theorem Chart.mem_phis_of_available (hc : c.Consistent) (h : c.Available Graph.entry 0 x) :
    x ∈ (c.block Graph.entry).phis :=
  (hc.phi _ x).2 h.home_of_entry

/-- After the arguments, only these and the values at the head of the entry are available. -/
theorem Chart.available_args (hc : c.Consistent) (h : c.Available Graph.entry c.sig.params.length x) :
    x ∈ (c.block Graph.entry).phis ∨ ∃ n ∈ List.range c.sig.params.length, x = (n : Int) := by
  obtain ⟨⟨l, place⟩, hx, -, ⟨rfl, hlt⟩ | ⟨hne, hdom⟩⟩ := h
  · cases place with
    | none => exact .inl ((hc.phi _ x).2 hx)
    | some j =>
      obtain ⟨a, ha, hout⟩ := hc.placed _ j x hx
      cases (hc.args j (hlt j rfl)).symm.trans ha
      exact .inr ⟨j, List.mem_range.2 (hlt j rfl), (Option.some.inj hout).symm⟩
  · exact absurd (List.mem_singleton.1 (hdom _ .entry)) hne

/-- The runs of a program use their registers as the chart asks: the machine that is watched is the one
that runs, and it is disciplined. It finds in place what stands at the head of the entry; a function in
single assignment form also finds its arguments there, since they are written before its first step. -/
inductive Program.Disciplined (p : Program) (c : Chart) (args : Array Word) (m : Memory) : Prop
  | machine {g : MachineDraft} {gr : Graph} {o : Machine.Object} : p.image = .machine o →
      g.Draws c → gr.Describes c.size c.succs → g.Laid c gr o →
      (∀ out, p.Yields args m out ↔ Ends (o.watched args).step (o.start m) out) →
      c.Disciplined args (o.watched args) (g.Runs c gr o) {x | x ∈ (c.block Graph.entry).phis}
        (Chart.start m) (o.start m) → p.Disciplined c args m
  | ssa {q : Ssa.Program} {f : Ssa.Func} {σ : Ref → Ref} {r : Registers} {s : Chart.State} :
      p.image = .ssa q → c.Replaces σ → f.Draws (c.simplify σ) → q.Compiles f (c.simplify σ) →
      Ssa.Program.placeArgs args 0 q.args (Array.replicate q.regs Word.zero) = .ok r →
      (∀ out, p.Yields args m out ↔ Ends q.watched.step ⟨(Graph.entry : Int), 0, r, m⟩ out) →
      Walks ((c.simplify σ).step args) c.sig.params.length (Chart.start m) s →
      (c.simplify σ).Disciplined args q.watched (Ssa.Program.Points f (c.simplify σ))
        {x | x ∈ ((c.simplify σ).block Graph.entry).phis ∨ ∃ n ∈ q.args, x = (n : Int)} s
        ⟨(Graph.entry : Int), 0, r, m⟩ → p.Disciplined c args m

theorem MachineDraft.Models.disciplined {g : MachineDraft} (h : g.Models c) (hc : c.Consistent)
    (hw : c.WellFormed) (args : Array Word) (m : Memory) :
    ∃ p, g.finalize = .ok (g.closed, .ok p) ∧ p.Disciplined c args m := by
  obtain ⟨p, gr, o, hf, hp, hg, hl⟩ := h.finalize_ok hc hw
  have hfollows := MachineDraft.follows args h.closed_draws hc hw hg hl
  refine ⟨p, hf, .machine hp h.closed_draws hg hl (fun out => ?_) ?_⟩
  · rw [Program.Yields, ends_iff]
    simp only [Program.run, hp]
    rfl
  · exact hfollows.disciplined hc hw (Chart.reached_start m) rfl (MachineDraft.runs_start hg m)
      fun x hx => Chart.mem_phis_of_available hc hx

theorem SsaDraft.Models.disciplined {g : SsaDraft} (h : g.Models c) (hc : c.Consistent) (hw : c.WellFormed)
    (hentry : c.EntryOnce) (hargs : args.size = c.sig.params.length) (m : Memory) :
    ∃ g' p, g.finalize = .ok (g', .ok p) ∧ p.Disciplined c args m := by
  obtain ⟨g', p, q, f, σ, hf, hp, hσ, hd, hcomp⟩ := h.finalize_ok hc hw hentry
  have hc' := hσ.consistent hw hc
  have hw' := hσ.wellFormed hw hc
  obtain ⟨r, s, hregs, hwalk, hblock, hplace, hpoints⟩ := hcomp.points_start args hd hc' hargs m
  refine ⟨g', p, hf, .ssa hp hσ hd hcomp hregs (fun out => ?_) hwalk ?_⟩
  · have hpoint := Ssa.Program.ends_advance_iff (p := q) (s := ⟨(Graph.entry : Int), r, m⟩) (o := out)
    refine Iff.trans ?_ hpoint
    rw [Program.Yields, ends_iff]
    simp only [Program.run, hp, Ssa.Program.run, hregs]
  · refine (Ssa.Program.follows args hd hc' hw' hcomp (hentry.simplify σ)).disciplined hc' hw' hpoints.reached hblock
      hpoints fun x hx => ?_
    rw [hblock, hplace] at hx
    rw [Set.mem_ofPred_eq, hcomp.args]
    exact Chart.available_args hc' hx

theorem Generator.Models.disciplined {g : Generator} (h : g.Models c) (hc : c.Consistent) (hw : c.WellFormed)
    (hentry : c.EntryOnce) (hargs : args.size = c.sig.params.length) (m : Memory) :
    ∃ g' p, g.finalize = .ok (g', .ok p) ∧ p.Disciplined c args m := by
  cases g with
  | machine g =>
    obtain ⟨p, hf, hp⟩ := MachineDraft.Models.disciplined h hc hw args m
    exact ⟨.machine g.closed, p, by simp only [Generator.finalize, hf, Except.map, Prod.map, id], hp⟩
  | ssa g =>
    obtain ⟨g', p, hf, hp⟩ := SsaDraft.Models.disciplined h hc hw hentry hargs m
    exact ⟨.ssa g', p, by simp only [Generator.finalize, hf, Except.map, Prod.map, id], hp⟩

/-! ## Accepted scripts -/

namespace Script

variable {s : Script} {b : Backend}

/-- Whatever an accepted program reads was written before in the same run, and a value at the head of a
block holds what was carried by the edge through which control entered the block last. Only the values at
the head of the entry are exempt. -/
theorem registers_written_before_read (hs : s.AvoidsEntry b) {p : Program}
    (hp : s.build b = .ok (.ok p)) {args : Array Word} (hargs : args.size = s.sig.params.length)
    (m : Memory) :
    ∃ t c, s.replay b = .ok t ∧ t.gen.Models c ∧ p.Disciplined c args m := by
  obtain ⟨t, c, ht, htracks, hw, hentry⟩ := accepted_chart hs hp
  obtain ⟨g, p', hf, hd⟩ := htracks.models.disciplined htracks.consistent hw hentry (htracks.sig ▸ hargs) m
  obtain rfl : p' = p := by simpa [build_eq ht hf] using hp
  exact ⟨t, c, ht, htracks.models, hd⟩

theorem registers_written_before_read_swapLoop : ∃ p, swapLoop.build .machine = .ok (.ok p) ∧
    ∃ t c, swapLoop.replay .machine = .ok t ∧ t.gen.Models c ∧
      p.Disciplined c #[.ofBits 3, .ofBits 4, .ofBits 5] .empty := by
  obtain ⟨p, hp⟩ := accepted_swapLoop
  exact ⟨p, hp, registers_written_before_read avoidsEntry_swapLoop hp rfl .empty⟩

/-- A value at the head of the entry, which is returned. -/
def entryJoin : Script where
  name := "f"
  sig := ⟨[], .i64⟩
  calls := [.phi 0 .i64, .terminate (.ret (some 0))]

/-- The first instruction of an accepted program reads a register that nothing has written. -/
theorem entryJoin_reads_unwritten : entryJoin.AvoidsEntry .machine ∧
    ∃ p o, entryJoin.build .machine = .ok (.ok p) ∧ p.image = .machine o ∧
      (0 : Reg) ∈ o.readsAt (o.start .empty) :=
  ⟨by decide +kernel, _, _, rfl, rfl, by decide +kernel⟩

end Script

end Codesmith.Gen
