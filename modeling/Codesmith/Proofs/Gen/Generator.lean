import Codesmith.Proofs.Gen.MachineRun
import Codesmith.Proofs.Gen.Notes
import Codesmith.Proofs.Gen.SsaRun

/-!
# What a generator does, whatever its back end

A generator describes a chart or has failed. Each call is accepted exactly if the chart allows it, and
changes the chart in the same way in both back ends. The program it becomes runs like the chart.
-/

namespace Codesmith.Gen

/-! ## Programs -/

namespace Program

/-- A run with these arguments and this memory ends with an outcome. -/
def Yields (p : Program) (args : Array Word) (m : Memory) (o : Outcome Word) : Prop :=
  o ≠ .unfinished ∧ ∃ fuel, p.run fuel args m = o

/-- A run with these arguments and this memory does not end. -/
def RunsForever (p : Program) (args : Array Word) (m : Memory) : Prop :=
  ∀ fuel, p.run fuel args m = .unfinished

def Performs (p : Program) (c : Chart) : Prop :=
  ∀ (args : Array Word) (m : Memory) (o : Outcome Word), args.size = c.sig.params.length →
    (Ends (c.step args) (Chart.start m) o ↔ p.Yields args m o)

theorem runsForever_iff {p : Program} {args : Array Word} {m : Memory} :
    p.RunsForever args m ↔ ∀ o, ¬ p.Yields args m o := by
  constructor
  · rintro h o ⟨ho, fuel, rfl⟩
    exact ho (h fuel)
  · intro h fuel
    by_contra hne
    exact h _ ⟨hne, fuel, rfl⟩

end Program

namespace Generator

variable {sig : Signature} {i : Int} {b join source : BlockId} {op : Operation} {t : Ty} {p x id : Ref}
  {e : Exit}

/-- The generator describes the chart and can be continued. -/
def Models : Generator → Chart → Prop
  | machine g, c => g.Models c
  | ssa g, c => g.Models c

variable {g : Generator} {c : Chart}

theorem start_models (b : Backend) (p : Option Position) (name : String)
    (hsig : ∀ t ∈ sig.params, t.kind ≠ .invalid) :
    ∃ g, ((ofBackend b).setPosition p).start name sig = ((Graph.entry : Int), g) ∧ g.Models (.ofSig sig) := by
  cases b with
  | machine =>
    refine ⟨.machine (MachineDraft.begun p name sig sig.params), ?_, MachineDraft.models_begun p name sig⟩
    have hargs : (MachineDraft.begun p name sig []).defineArgs 0 sig.params =
        MachineDraft.begun p name sig sig.params := MachineDraft.defineArgs_scalar [] sig.params hsig
    exact congrArg (fun g => ((Graph.entry : Int), Generator.machine g)) hargs
  | ssa =>
    obtain ⟨g, hg, hm⟩ := SsaDraft.start_models p name hsig
    refine ⟨.ssa g, ?_, hm⟩
    simp only [ofBackend, setPosition, start, hg]
    rfl

/-! ## Calls that pass -/

section

variable (h : g.Models c)
include h

theorem Models.current : g.current = c.current := by
  cases g with
  | machine g => exact congrArg Int.ofNat (MachineDraft.Models.current h)
  | ssa g => exact congrArg Int.ofNat (SsaDraft.Models.current h)

theorem Models.setPosition (p : Option Position) : (g.setPosition p).Models c := by
  cases g with
  | machine g => exact { h with draft := { (MachineDraft.Models.draft h) with } }
  | ssa g => exact { h with draft := { (SsaDraft.Models.draft h) with } }

theorem Models.arg (hi : 0 ≤ i ∧ i < c.sig.params.length) : g.arg i = .ok (i, g) := by
  cases g with
  | machine g => simp only [Generator.arg, MachineDraft.Models.arg h hi, Prod.map, id]
  | ssa g => simp only [Generator.arg, SsaDraft.Models.arg h hi, Except.map, Prod.map, id]

theorem Models.newBlock (hc : c.Consistent) (name : String) :
    ∃ g', g.newBlock name = .ok ((c.size : Int), g') ∧ g'.Models c.newBlock := by
  cases g with
  | machine g =>
    obtain ⟨g', hg, hm⟩ := MachineDraft.Models.newBlock h hc name
    exact ⟨.machine g', by simp only [Generator.newBlock, hg, Prod.map, id], hm⟩
  | ssa g =>
    obtain ⟨g', hg, hm⟩ := SsaDraft.Models.newBlock h hc name
    exact ⟨.ssa g', by simp only [Generator.newBlock, hg, Except.map, Prod.map, id], hm⟩

theorem Models.setBlock (hb : 0 ≤ b ∧ b < c.size) :
    ∃ g', g.setBlock b = .ok g' ∧ g'.Models (c.setBlock b.toNat) := by
  cases g with
  | machine g => exact ⟨_, rfl, MachineDraft.Models.setBlock h hb⟩
  | ssa g =>
    obtain ⟨g', hg, hm⟩ := SsaDraft.Models.setBlock h hb
    exact ⟨.ssa g', by simp only [Generator.setBlock, hg, Except.map], hm⟩

end

section

variable (h : g.Models c) (hc : c.Consistent)
include h hc

theorem Models.terminated : g.terminated = .ok (c.block c.current).exit.isSome := by
  cases g with
  | machine g =>
    obtain ⟨b, hb, hs⟩ := (MachineDraft.Models.draws h).exists_block hc.current
    rw [Generator.terminated, MachineDraft.terminated, MachineDraft.Models.current h,
      fetch_natCast hb, ← hs.exit, Option.isSome_map]
    rfl
  | ssa g =>
    obtain ⟨f, hf, hm⟩ := SsaDraft.Models.func h
    obtain ⟨b, hb, hs⟩ := hm.exists_block hc.current
    have hterm : b.term.isSome = (c.block c.current).exit.isSome := by
      rw [Bool.eq_iff_iff, Option.isSome_iff_ne_none, Option.isSome_iff_ne_none]
      exact not_congr hs.term_eq_none_iff
    rw [Generator.terminated, SsaDraft.terminated, SsaDraft.begunFunc, hf, SsaDraft.Models.current h, ← hterm]
    simp [bind, Except.bind, Ssa.Func.terminated, fetch_natCast hb, Except.map]

theorem Models.value (hl : c.Unended) (hop : op.Fits c.ty) :
    ∃ x g', g.value op = (x, g') ∧ c.home x = none ∧ 0 ≤ x ∧ g'.Models (c.value x op) := by
  cases g with
  | machine g =>
    obtain ⟨x, g', hg, hx, h0, hm⟩ := MachineDraft.Models.value h hc hl hop
    exact ⟨x, .machine g', by simp only [Generator.value, hg, Prod.map, id], hx, h0, hm⟩
  | ssa g =>
    obtain ⟨x, g', hg, hx, h0, hm⟩ := SsaDraft.Models.value h hc hl hop
    exact ⟨x, .ssa g', by simp only [Generator.value, hg, Prod.map, id], hx, h0, hm⟩

theorem Models.store (hl : c.Unended) (hp : (c.ty p).isPtr = true) (hx : c.ty x = t)
    (ht : t.kind ≠ .invalid) : (g.store t p x).Models (c.store t p x) := by
  cases g with
  | machine g => exact MachineDraft.Models.store h hc hl hp hx ht
  | ssa g => exact SsaDraft.Models.store h hc hl hp hx ht

theorem Models.terminate (hl : c.Unended) (he : e.Fits c.sig.result c.size c.ty) :
    (g.terminate e).Models (c.terminate e) := by
  cases g with
  | machine g => exact MachineDraft.Models.terminate h hc hl he
  | ssa g => exact SsaDraft.Models.terminate h hc hl he

theorem Models.phi (hj : 0 ≤ join ∧ join < c.size) (ht : t.kind ≠ .invalid) :
    ∃ x g', g.phi join t = (x, g') ∧ c.home x = none ∧ 0 ≤ x ∧ g'.Models (c.phi x join.toNat t) := by
  cases g with
  | machine g =>
    obtain ⟨x, g', hg, hx, h0, hm⟩ := MachineDraft.Models.phi h hj ht
    exact ⟨x, .machine g', by simp only [Generator.phi, hg, Prod.map, id], hx, h0, hm⟩
  | ssa g =>
    obtain ⟨x, g', hg, hx, h0, hm⟩ := SsaDraft.Models.phi h hc hj ht
    exact ⟨x, .ssa g', by simp only [Generator.phi, hg, Prod.map, id], hx, h0, hm⟩

theorem Models.addIncoming {l : Label} (hid : c.home id = some ⟨l, none⟩) (hs : 0 ≤ source ∧ source < c.size)
    (x : Ref) : (g.addIncoming id source x).Models (c.join id source x) := by
  cases g with
  | machine g => exact MachineDraft.Models.addIncoming h hid hs x
  | ssa g => exact SsaDraft.Models.addIncoming h hc hid hs x

/-! ## Calls that are refused -/

theorem Models.unended_iff : g.unended = .ok () ↔ (c.block c.current).exit = none := by
  rw [unended, h.terminated hc]
  cases (c.block c.current).exit <;> simp

omit hc in
theorem Models.draft : g.draft.Agrees g.backend c.sig c.ty := by
  cases g with
  | machine g => exact { MachineDraft.Models.draft h with backend := rfl }
  | ssa g => exact { SsaDraft.Models.draft h with backend := rfl }

omit hc in
theorem Models.blockCount : g.blockCount = c.size := by
  cases g with
  | machine g => exact MachineDraft.Models.size h
  | ssa g => exact SsaDraft.Models.blockCount h

theorem Models.inUse : ∃ func, g.InUse g.backend g.draft.name func := by
  cases g with
  | machine g =>
    have hd := MachineDraft.Models.draft h
    exact ⟨"", rfl, rfl, hd.begun, hd.finalized, hd.backend⟩
  | ssa g =>
    have hd := SsaDraft.Models.draft h
    obtain ⟨f, hf, hm⟩ := SsaDraft.Models.func h
    refine ⟨f.name, rfl, rfl, hd.begun, hd.finalized, hd.backend, f, hf, rfl, ?_⟩
    rw [SsaDraft.Models.current h, hm.size]
    exact hc.current

theorem Models.refused {check : Except Reason Unit} {g' : Generator}
    (hn : ∀ {name func}, g.InUse g.backend name func → g.Notes (g.owed check) g') (hno : check ≠ .ok ()) :
    g'.Broken := by
  obtain ⟨func, huse⟩ := h.inUse hc
  refine huse.broken (hn huse) (.inl ?_)
  cases check with
  | error reason => exact Option.some_ne_none _
  | ok u => exact absurd rfl hno

theorem Models.arg_refused (hno : ¬ (0 ≤ i ∧ i < c.sig.params.length)) :
    ∃ r g', g.arg i = .ok (r, g') ∧ g'.Broken := by
  obtain ⟨func, huse⟩ := h.inUse hc
  obtain ⟨r, g', hg, hn⟩ := huse.arg i
  have hcount : 0 ≤ i ∧ i < g.argCount → 0 ≤ i ∧ i < c.sig.params.length := fun hi => by
    cases g with
    | machine g =>
      have hsome := fetch?_isSome_iff.2 hi
      rw [MachineDraft.Models.args h] at hsome
      by_contra hne
      simp [hne] at hsome
    | ssa g =>
      obtain ⟨f, hf, hm⟩ := SsaDraft.Models.func h
      simpa [argCount, hf, hm.args] using hi
  exact ⟨r, g', hg, h.refused hc (fun _ => hn) fun hok => hno (hcount (ite_ok_iff'.1 hok))⟩

theorem Models.setBlock_refused (hno : ¬ (0 ≤ b ∧ b < c.size)) : ∃ g', g.setBlock b = .ok g' ∧ g'.Broken := by
  obtain ⟨func, huse⟩ := h.inUse hc
  obtain ⟨g', hg, hn⟩ := huse.setBlock b
  exact ⟨g', hg, h.refused hc (fun _ => hn) fun hok => hno (h.blockCount ▸ ite_ok_iff'.1 hok)⟩

theorem Models.value_refused (hno : ¬ (c.Unended ∧ op.Fits c.ty)) : (g.value op).2.Broken := by
  refine h.refused hc (·.value op) fun hok => hno ?_
  obtain ⟨hl, hop⟩ := seq_ok_iff.1 hok
  exact ⟨(h.unended_iff hc).1 hl, h.draft.checkOperation.1 hop⟩

theorem Models.store_refused (hno : ¬ (c.Unended ∧ (c.ty p).isPtr = true ∧ c.ty x = t ∧ t.kind ≠ .invalid)) :
    (g.store t p x).Broken := by
  refine h.refused hc (·.store t p x) fun hok => hno ?_
  obtain ⟨hl, hs⟩ := seq_ok_iff.1 hok
  exact ⟨(h.unended_iff hc).1 hl, h.draft.checkStore.1 hs⟩

theorem Models.terminate_refused (hno : ¬ (c.Unended ∧ e.Fits c.sig.result c.size c.ty)) :
    (g.terminate e).Broken := by
  refine h.refused hc (·.terminate e) fun hok => hno ?_
  obtain ⟨hl, he⟩ := seq_ok_iff.1 hok
  exact ⟨(h.unended_iff hc).1 hl, h.draft.checkExit.1 (h.blockCount ▸ he)⟩

theorem Models.phi_refused (hno : ¬ ((0 ≤ join ∧ join < c.size) ∧ t.kind ≠ .invalid)) :
    (g.phi join t).2.Broken := by
  refine h.refused hc (·.phi join t) fun hok => hno ?_
  obtain ⟨hj, ht⟩ := seq_ok_iff.1 hok
  exact ⟨h.blockCount ▸ Draft.checkBlock_ok_iff.1 hj, Draft.scalar_ok_iff.1 ht⟩

theorem Models.addIncoming_refused
    (hno : ¬ ((0 ≤ source ∧ source < c.size) ∧ ∃ l, c.home id = some ⟨l, none⟩)) :
    (g.addIncoming id source x).Broken := by
  refine h.refused hc (·.addIncoming id source x) fun hok => hno ?_
  obtain ⟨hs, hj⟩ := seq_ok_iff.1 hok
  refine ⟨h.blockCount ▸ Draft.checkBlock_ok_iff.1 hs, ?_⟩
  cases g with
  | machine g => exact (MachineDraft.Models.checkPhi_iff h).1 ((g.checkPhi_eq id).trans hj)
  | ssa g =>
    obtain ⟨f, hf, hm⟩ := SsaDraft.Models.func h
    have hphi : (f.phi? id).isSome = true := by simpa [joins, hf] using ite_ok_iff'.1 hj
    obtain ⟨bs, hbs⟩ := Option.isSome_iff_exists.1 hphi
    exact hm.only id bs hbs

end

/-! ## Finishing -/

/-- A well-formed chart becomes a program that performs it. -/
theorem Models.finalize_ok (h : g.Models c) (hc : c.Consistent) (hw : c.WellFormed) (hentry : c.EntryOnce) :
    ∃ g' p, g.finalize = .ok (g', .ok p) ∧ p.Performs c := by
  cases g with
  | machine g =>
    obtain ⟨p, gr, o, hf, hp, hg, hl⟩ := MachineDraft.Models.finalize_ok h hc hw
    refine ⟨.machine g.closed, p, ?_, fun args m out _ => ?_⟩
    · simp only [Generator.finalize, hf, Except.map, Prod.map, id]
    · rw [hl.ends_iff args (MachineDraft.Models.closed_draws h) hc hw hg m, ends_iff, Program.Yields]
      simp only [Program.run, hp]
      rfl
  | ssa g =>
    obtain ⟨g', p, q, f, σ, hf, hp, hs, hd, hcomp⟩ := SsaDraft.Models.finalize_ok h hc hw hentry
    refine ⟨.ssa g', p, ?_, fun args m out hargs => ?_⟩
    · simp only [Generator.finalize, hf, Except.map, Prod.map, id]
    · rw [(hs.mimics hw hc).ends_iff args hw hc m,
        hcomp.ends_iff args hd (hs.consistent hw hc) (hs.wellFormed hw hc) (hentry.simplify σ) hargs m,
        Program.Yields]
      simp only [Program.run, hp]

theorem Models.finalize_refused (h : g.Models c) (hc : c.Consistent) (hw : ¬ c.WellFormed) :
    ∃ g' e, g.finalize = .ok (g', .error e) := by
  cases g with
  | machine g =>
    obtain ⟨e, hf⟩ := MachineDraft.Models.finalize_refused h hc hw
    exact ⟨.machine g.closed, e, by simp only [Generator.finalize, hf, Except.map, Prod.map, id]⟩
  | ssa g =>
    obtain ⟨g', e, hf⟩ := SsaDraft.Models.finalize_refused h hc hw
    exact ⟨.ssa g', e, by simp only [Generator.finalize, hf, Except.map, Prod.map, id]⟩

/-- What the draft remembers is told. -/
theorem finalize_of_error (hfinal : g.draft.finalized = false) {e : Failure} (he : g.draft.error = some e) :
    ∃ g', g.finalize = .ok (g', .error e) := by
  cases g with
  | machine g =>
    refine ⟨.machine { g with draft := { g.draft with finalized := true } }, ?_⟩
    rw [finalize, MachineDraft.finalize, if_neg (by rw [show g.draft.finalized = false from hfinal]; decide)]
    simp only [show g.draft.error = some e from he]
    rfl
  | ssa g =>
    refine ⟨.ssa { g with draft := { g.draft with finalized := true } }, ?_⟩
    rw [finalize, SsaDraft.finalize, if_neg (by rw [show g.draft.finalized = false from hfinal]; decide)]
    simp only [show g.draft.error = some e from he]
    rfl

/-- What the function remembers is told if the draft remembers nothing. -/
theorem InUse.finalize_of_buildError {b : Backend} {name func : String} (h : g.InUse b name func)
    (he : g.draft.error = none) {cause : Ssa.BuildError} (hcause : g.buildError = some cause) :
    ∃ g', g.finalize = .ok (g', .error
      { backend := b, func := name, reason := .compiling (.verify (.built func cause)) }) := by
  cases g with
  | machine g => cases hcause
  | ssa g =>
    obtain ⟨-, f, hf, hname, hcur⟩ := h.form
    have hfe : f.error = some cause := by simpa [buildError, hf] using hcause
    obtain ⟨f', hcompile⟩ := Ssa.Func.compile_of_error (Nat.zero_lt_of_lt hcur) hfe
    have hbackend : g.draft.backend = b := h.backend
    have hfunc : g.draft.name = name := h.named
    refine ⟨.ssa { g with draft := { g.draft with finalized := true }, func := some f' }, ?_⟩
    rw [finalize, SsaDraft.finalize, if_neg (by rw [show g.draft.finalized = false from h.finalized]; decide)]
    simp only [show g.draft.error = none from he, hf, bind, Except.bind, hcompile, hname,
      SsaDraft.compileFailure, Draft.refusal, hbackend, hfunc]
    rfl

theorem Broken.finalize (h : g.Broken) : ∃ g' e, g.finalize = .ok (g', .error e) := by
  obtain ⟨b, name, func, huse, he⟩ := h
  cases herr : g.draft.error with
  | some e =>
    obtain ⟨g', hg⟩ := finalize_of_error huse.finalized herr
    exact ⟨g', e, hg⟩
  | none =>
    obtain ⟨cause, hcause⟩ := Option.ne_none_iff_exists'.1 (he.resolve_left (not_not.2 herr))
    obtain ⟨g', hg⟩ := huse.finalize_of_buildError herr hcause
    exact ⟨g', _, hg⟩

end Generator

end Codesmith.Gen
