import Codesmith.Proofs.Gen.SsaModel
import Codesmith.Proofs.Ssa.Lines
import Codesmith.Proofs.Ssa.Simplify

/-!
# Finishing functions in single assignment form

A draft becomes a program exactly if its chart is well formed. The program is that of the chart
without its trivial phis, which ends as the chart does.
-/

namespace Codesmith.Ssa.Func

open Gen (Chart)

variable {f : Func} {c : Chart}
variable {f1 : Func}

/-- A function that passes its first check compiles. -/
theorem Draws.emit_simplified (h : f.Draws c) (hc : c.Consistent) (hw : c.WellFormed) (hentry : c.EntryOnce) :
    ∃ gr p, f.removeTrivialPhis.2.verify = .ok (f.removeTrivialPhis.2, .ok gr) ∧
      f.removeTrivialPhis.2.emit gr = .ok p ∧
      p.Compiles f.removeTrivialPhis.2 (c.simplify f.trivialPhis.apply) := by
  obtain ⟨-, hreplaces⟩ := h.trivialPhis hc hw hentry
  have hd := h.removeTrivialPhis hc hw hentry
  have hc' := hreplaces.consistent hw hc
  have hw' := hreplaces.wellFormed hw hc
  obtain ⟨gr, hg, hv⟩ := hd.verify_ok hc' hw'
  obtain ⟨p, hp, hcomp⟩ := hd.emit_ok hg
  exact ⟨gr, p, hv, hp, hcomp⟩

/-- The function of a well-formed chart compiles to the program of the chart without its trivial
phis. -/
theorem Models.compile_ok (h : f.Models c) (hc : c.Consistent) (hw : c.WellFormed) (hentry : c.EntryOnce) :
    ∃ f' p σ, f.compile = .ok (f', .ok p) ∧ c.Replaces σ ∧ f'.Draws (c.simplify σ) ∧
      p.Compiles f' (c.simplify σ) := by
  obtain ⟨f1, hp, hd⟩ := h.prune hc
  obtain ⟨gr, -, hv⟩ := hd.verify_ok hc hw
  obtain ⟨gr', p, hv', he, hcomp⟩ := hd.emit_simplified hc hw hentry
  refine ⟨f1.removeTrivialPhis.2, p, f1.trivialPhis.apply, ?_,
    (hd.trivialPhis hc hw hentry).2, hd.removeTrivialPhis hc hw hentry, hcomp⟩
  rw [compile, hp]
  simp only [bind, Except.bind, hv, hv', he]
  rfl

theorem Models.compile_refused (h : f.Models c) (hc : c.Consistent) (hw : ¬ c.WellFormed) :
    ∃ f' e, f.compile = .ok (f', .error e) := by
  obtain ⟨f1, hp, hd⟩ := h.prune hc
  obtain ⟨e, hv⟩ := hd.verify_refused hc hw
  refine ⟨f1, .verify e, ?_⟩
  rw [compile, hp]
  simp only [bind, Except.bind, hv]
  rfl

theorem compile_of_error (hpos : 0 < f.blocks.size) {e : BuildError} (he : f.error = some e) :
    ∃ f', f.compile = .ok (f', .error (.verify (.built f.name e))) := by
  obtain ⟨f1, hp, hsame, -⟩ := prune_eq hpos
  have herror : f1.error = some e := by rw [hsame, he]
  have hname : f1.name = f.name := by rw [hsame]
  refine ⟨f1, ?_⟩
  rw [compile, hp, ← hname]
  simp only [bind, Except.bind, verify_eq_of_error herror]
  rfl

end Codesmith.Ssa.Func

namespace Codesmith.Gen.SsaDraft

variable {g : SsaDraft} {c : Chart}

/-- The draft of a well-formed chart becomes a program. -/
theorem Models.finalize_ok (h : g.Models c) (hc : c.Consistent) (hw : c.WellFormed) (hentry : c.EntryOnce) :
    ∃ g' p q f σ, g.finalize = .ok (g', .ok p) ∧ p.image = .ssa q ∧ c.Replaces σ ∧
      f.Draws (c.simplify σ) ∧ q.Compiles f (c.simplify σ) := by
  obtain ⟨f, hf, hm⟩ := h.func
  obtain ⟨f', q, σ, hcompile, hreplaces, hd, hcomp⟩ := hm.compile_ok hc hw hentry
  obtain ⟨symbols, hsymbols⟩ := hd.symbols_ok (hreplaces.consistent hw hc) hcomp.layout
  rw [← hcomp.func] at hsymbols
  refine ⟨{ g with draft := { g.draft with finalized := true }, func := some f' },
    ⟨.ssa q, symbols⟩, q, f', σ, ?_, rfl, hreplaces, hd, hcomp⟩
  rw [finalize, h.draft.finalized]
  simp only [Bool.false_eq_true, if_false, h.draft.error, hf, bind, Except.bind, hcompile, hsymbols]
  rfl

theorem finalize_of_compile {f f' : Ssa.Func} {e : Ssa.CompileError} (hf : g.func = some f)
    (hcompile : f.compile = .ok (f', .error e)) : ∃ g' e, g.finalize = .ok (g', .error e) := by
  unfold finalize
  split
  · exact ⟨_, _, rfl⟩
  cases herr : g.draft.error with
  | some e =>
    simp only [herr]
    exact ⟨_, _, rfl⟩
  | none =>
    simp only [herr, hf, bind, Except.bind, hcompile]
    exact ⟨_, _, rfl⟩

theorem Models.finalize_refused (h : g.Models c) (hc : c.Consistent) (hw : ¬ c.WellFormed) :
    ∃ g' e, g.finalize = .ok (g', .error e) := by
  obtain ⟨f, hf, hm⟩ := h.func
  obtain ⟨f', e, hcompile⟩ := hm.compile_refused hc hw
  exact finalize_of_compile hf hcompile

end Codesmith.Gen.SsaDraft
