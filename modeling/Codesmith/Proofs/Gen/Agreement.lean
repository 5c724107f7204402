import Codesmith.Proofs.Gen.Replay

/-!
# The back ends agree

Both back ends accept the same scripts, and the programs they make of an accepted script end alike. The
chart of the script decides both: a back end accepts it exactly if it is well formed, and its program
performs it.
-/

namespace Codesmith.Gen.Script

variable {s : Script} {b : Backend}
variable {t : Session} {gr : Graph}

/-- A back end makes a program of the script. -/
def Accepted (s : Script) (b : Backend) : Prop :=
  ∃ p, s.build b = .ok (.ok p)

instance (s : Script) (b : Backend) : Decidable (s.Accepted b) :=
  match h : s.build b with
  | .ok (.ok p) => isTrue ⟨p, h⟩
  | .ok (.error _) => isFalse fun ⟨_, hp⟩ => by rw [h] at hp; cases hp
  | .error _ => isFalse fun ⟨_, hp⟩ => by rw [h] at hp; cases hp

instance (s : Script) (b : Backend) : Decidable (s.AvoidsEntry b) :=
  match h : s.replay b with
  | .ok t => decidable_of_iff ((Graph.entry : Int) ∉ t.targets)
    ⟨fun ht _ hu => Except.ok.inj (h.symm.trans hu) ▸ ht, fun hs => hs t h⟩
  | .error _ => isTrue fun _ ht => by rw [h] at ht; cases ht

/-- What a script leads to is decided by its chart, which both back ends share. -/
inductive Verdict (s : Script) : Prop
  /-- Both back ends make programs that perform the same chart. -/
  | accepted {p q : Program} {c c' : Chart} {f : Ref → Ref} : s.build .machine = .ok (.ok p) →
      s.build .ssa = .ok (.ok q) → c.sig = s.sig → p.Performs c → q.Performs c' → c.Renames c' f →
      c.Consistent → c.WellFormed → Verdict s
  /-- Both back ends refuse. -/
  | refused {e e' : Failure} : s.build .machine = .ok (.error e) → s.build .ssa = .ok (.error e') →
      Verdict s

theorem build_eq {g : Generator} {r : Except Failure Program} (ht : s.replay b = .ok t)
    (hf : t.gen.finalize = .ok (g, r)) : s.build b = .ok r := by
  rw [build, ht]
  simp only [bind, Except.bind, hf]
  rfl

/-- No edge of the chart leads to the entry, whichever back end was asked. -/
theorem AvoidsEntry.not_edge (hs : s.AvoidsEntry b) {t' : Session} {sig : Signature} {c c' : Chart}
    {f : Ref → Ref} (ht : s.replay .machine = .ok t) (ht' : s.replay .ssa = .ok t')
    (h : t.Matches t' sig c c' f) (l : Label) : ¬ Graph.Edge c.succs l Graph.entry := by
  intro hl
  have hmem := h.left.entry l hl
  cases b with
  | machine => exact hs t ht hmem
  | ssa => exact hs t' ht' (h.targets ▸ hmem)

theorem verdict (hs : s.AvoidsEntry b) : s.Verdict := by
  obtain ⟨t, t', ht, ht', ⟨c, c', f, h⟩ | ⟨hb, hb'⟩⟩ := s.exists_replay
  · have hc := h.left.consistent
    have hentry := hs.not_edge ht ht' h
    by_cases hw : c.WellFormed
    · have hw' := (h.renames.wellFormed_iff hc).2 hw
      obtain ⟨g, p, hp, hperf⟩ := h.left.models.finalize_ok hc hw hentry
      obtain ⟨g', q, hq, hperf'⟩ := h.right.models.finalize_ok h.right.consistent hw'
        fun l => h.renames.succs ▸ hentry l
      exact .accepted (build_eq ht hp) (build_eq ht' hq) h.left.sig hperf hperf' h.renames hc hw
    · obtain ⟨g, e, he⟩ := h.left.models.finalize_refused hc hw
      obtain ⟨g', e', he'⟩ := h.right.models.finalize_refused h.right.consistent fun hw' =>
        hw ((h.renames.wellFormed_iff hc).1 hw')
      exact .refused (build_eq ht he) (build_eq ht' he')
  · obtain ⟨g, e, he⟩ := hb.finalize
    obtain ⟨g', e', he'⟩ := hb'.finalize
    exact .refused (build_eq ht he) (build_eq ht' he')

/-- The chart of an accepted script is well formed. -/
theorem accepted_chart (hs : s.AvoidsEntry b) {p : Program} (hp : s.build b = .ok (.ok p)) :
    ∃ t c, s.replay b = .ok t ∧ t.Tracks s.sig c ∧ c.WellFormed ∧
      ∀ l, ¬ Graph.Edge c.succs l Graph.entry := by
  have hno : ∀ {t : Session}, s.replay b = .ok t → ∀ g e, t.gen.finalize ≠ .ok (g, .error e) := by
    intro t ht g e he
    rw [build_eq ht he] at hp
    cases hp
  have hwell : ∀ {t : Session} {c : Chart}, s.replay b = .ok t → t.Tracks s.sig c → c.WellFormed := by
    intro t c ht h
    by_contra hw
    obtain ⟨g, e, he⟩ := h.models.finalize_refused h.consistent hw
    exact hno ht g e he
  obtain ⟨t, t', ht, ht', ⟨c, c', f, h⟩ | ⟨hb, hb'⟩⟩ := s.exists_replay
  · have hentry := hs.not_edge ht ht' h
    cases b with
    | machine => exact ⟨t, c, ht, h.left, hwell ht h.left, hentry⟩
    | ssa => exact ⟨t', c', ht', h.right, hwell ht' h.right, h.renames.succs ▸ hentry⟩
  · cases b with
    | machine =>
      obtain ⟨g, e, he⟩ := hb.finalize
      exact absurd he (hno ht g e)
    | ssa =>
      obtain ⟨g, e, he⟩ := hb'.finalize
      exact absurd he (hno ht' g e)

theorem accepted_iff (hs : s.AvoidsEntry b) : s.Accepted .machine ↔ s.Accepted .ssa := by
  cases verdict hs with
  | accepted hp hq => exact iff_of_true ⟨_, hp⟩ ⟨_, hq⟩
  | refused he he' =>
    refine iff_of_false ?_ ?_
    · rintro ⟨p, hp⟩
      rw [he] at hp
      cases hp
    · rintro ⟨p, hp⟩
      rw [he'] at hp
      cases hp

/-! ## Runs -/

/-- The programs that the back ends make of a script end alike: with the same word and memory, or with
the same fault and memory, or not at all. -/
theorem programs_end_alike (hs : s.AvoidsEntry b) {p q : Program}
    (hp : s.build .machine = .ok (.ok p)) (hq : s.build .ssa = .ok (.ok q)) {args : Array Word}
    (hargs : args.size = s.sig.params.length) (m : Memory) :
    (∃ w m', p.Yields args m (.done w m') ∧ q.Yields args m (.done w m')) ∨
      (∃ f m', p.Yields args m (.fault f m') ∧ q.Yields args m (.fault f m')) ∨
      p.RunsForever args m ∧ q.RunsForever args m := by
  cases verdict hs with
  | refused he => rw [he] at hp; cases hp
  | @accepted p' q' c c' f hp' hq' hsig hperf hperf' hren hc hw =>
    obtain rfl : p' = p := by simpa [hp'] using hp
    obtain rfl : q' = q := by simpa [hq'] using hq
    have hp'' : ∀ o, Ends (c.step args) (Chart.start m) o ↔ p'.Yields args m o := fun o =>
      hperf args m o (hsig ▸ hargs)
    have hq'' : ∀ o, Ends (c.step args) (Chart.start m) o ↔ q'.Yields args m o := fun o =>
      ((hren.mimics hw hc).ends_iff args hw hc m).trans (hperf' args m o (by rw [hren.sig, hsig, hargs]))
    by_cases hends : ∃ o, Ends (c.step args) (Chart.start m) o
    · obtain ⟨o, ho⟩ := hends
      cases o with
      | done w m' => exact .inl ⟨w, m', (hp'' _).1 ho, (hq'' _).1 ho⟩
      | fault f m' => exact .inr (.inl ⟨f, m', (hp'' _).1 ho, (hq'' _).1 ho⟩)
      | unfinished => exact absurd rfl ho.ne_unfinished
    · refine .inr (.inr ⟨Program.runsForever_iff.2 fun o ho => hends ⟨o, (hp'' o).2 ho⟩,
        Program.runsForever_iff.2 fun o ho => hends ⟨o, (hq'' o).2 ho⟩⟩)

/-- A loop that swaps its first two arguments as often as the third one says. -/
def swapLoop : Script where
  name := "swap"
  sig := ⟨[.i64, .i64, .i64], .i64⟩
  calls := [.arg 0, .arg 1, .arg 2, .newBlock "loop", .newBlock "body", .newBlock "done",
    .terminate (.jump 1), .setBlock 1, .phi 1 .i64, .phi 1 .i64, .phi 1 .i64,
    .value (.const .i64 0), .value (.compare .gt .i64 5 6), .terminate (.branch 7 2 3),
    .setBlock 2, .value (.const .i64 1), .value (.binary .sub .i64 5 8), .terminate (.jump 1),
    .addIncoming 3 0 0, .addIncoming 3 2 4, .addIncoming 4 0 1, .addIncoming 4 2 3,
    .addIncoming 5 0 2, .addIncoming 5 2 9, .setBlock 3, .terminate (.ret (some 3))]

theorem avoidsEntry_swapLoop : swapLoop.AvoidsEntry .machine := by decide +kernel

theorem accepted_swapLoop : swapLoop.Accepted .machine := by decide +kernel

theorem programs_end_alike_swapLoop : ∃ p q, swapLoop.build .machine = .ok (.ok p) ∧
    swapLoop.build .ssa = .ok (.ok q) ∧
    ((∃ w m', p.Yields #[.ofBits 3, .ofBits 4, .ofBits 5] .empty (.done w m') ∧
        q.Yields #[.ofBits 3, .ofBits 4, .ofBits 5] .empty (.done w m')) ∨
      (∃ f m', p.Yields #[.ofBits 3, .ofBits 4, .ofBits 5] .empty (.fault f m') ∧
        q.Yields #[.ofBits 3, .ofBits 4, .ofBits 5] .empty (.fault f m')) ∨
      p.RunsForever #[.ofBits 3, .ofBits 4, .ofBits 5] .empty ∧
        q.RunsForever #[.ofBits 3, .ofBits 4, .ofBits 5] .empty) := by
  obtain ⟨p, hp⟩ := accepted_swapLoop
  obtain ⟨q, hq⟩ := (accepted_iff avoidsEntry_swapLoop).1 accepted_swapLoop
  exact ⟨p, q, hp, hq, programs_end_alike avoidsEntry_swapLoop hp hq rfl .empty⟩

/-! ## Checks -/

theorem exists_build (hs : s.AvoidsEntry b) (k : Backend) : ∃ r, s.build k = .ok r := by
  cases verdict hs with
  | accepted hp hq =>
    cases k with
    | machine => exact ⟨_, hp⟩
    | ssa => exact ⟨_, hq⟩
  | refused he he' =>
    cases k with
    | machine => exact ⟨_, he⟩
    | ssa => exact ⟨_, he'⟩

/-- Code that passes the check can be assembled. -/
theorem assembles_of_verify {g : MachineDraft} (ht : s.replay .machine = .ok t) (hg : t.gen = .machine g)
    (herr : g.draft.error = none) (hb : Graph.build g.blocks.size g.succs = .ok gr)
    (hv : g.closed.verify gr = .ok ()) : ∃ o, (g.closed.layOut gr).assemble = .ok o := by
  obtain ⟨u, u', hu, -, ⟨c, c', f, h⟩ | ⟨hbroken, -⟩⟩ := s.exists_replay
  all_goals obtain rfl : u = t := Except.ok.inj (hu.symm.trans ht)
  · have hm : g.Models c := by
      have := h.left.models
      rwa [hg] at this
    have hc := h.left.consistent
    obtain ⟨gr', hb', hdesc⟩ := hc.build_ok
    rw [hm.size, hm.draws.succs hc, hb'] at hb
    cases hb
    have hw := (hm.closed_draws.verify_iff hc hdesc).1 hv
    obtain ⟨o, ho, -⟩ := hm.closed_draws.assemble_ok hc hw hdesc Machine.nextReg
    exact ⟨o, ho⟩
  · rw [hg] at hbroken
    obtain ⟨-, -, -, -, hno | hno⟩ := hbroken
    · exact absurd herr hno
    · exact absurd rfl hno

/-- A function that passes its first check compiles. -/
theorem compiles_of_verify (hs : s.AvoidsEntry b) {g : SsaDraft} {f f1 f2 : Ssa.Func}
    (ht : s.replay .ssa = .ok t) (hg : t.gen = .ssa g) (herr : g.draft.error = none) (hf : g.func = some f)
    (hp : f.prune = .ok f1) (hv : f1.verify = .ok (f2, .ok gr)) : ∃ f' p, f.compile = .ok (f', .ok p) := by
  obtain ⟨u, u', hu, hu', ⟨c, c', k, h⟩ | ⟨-, hbroken⟩⟩ := s.exists_replay
  all_goals obtain rfl : u' = t := Except.ok.inj (hu'.symm.trans ht)
  · have hm : g.Models c' := by
      have := h.right.models
      rwa [hg] at this
    have hc := h.right.consistent
    obtain ⟨f', hf', hmod⟩ := hm.func
    obtain rfl : f' = f := Option.some.inj (hf'.symm.trans hf)
    have hw : c'.WellFormed := by
      obtain ⟨f1', hp', hd⟩ := hmod.prune hc
      obtain rfl : f1' = f1 := Except.ok.inj (hp'.symm.trans hp)
      by_contra hw
      obtain ⟨e, he⟩ := hd.verify_refused hc hw
      cases he.symm.trans hv
    obtain ⟨f', p, -, hcompile, -⟩ := hmod.compile_ok hc hw fun l => h.renames.succs ▸ hs.not_edge hu hu' h l
    exact ⟨f', p, hcompile⟩
  · rw [hg] at hbroken
    obtain ⟨_, _, _, huse, hno | hno⟩ := hbroken
    · exact absurd herr hno
    obtain ⟨-, f', hf', -, hcur⟩ := huse.form
    obtain rfl : f' = f := Option.some.inj (hf'.symm.trans hf)
    obtain ⟨e, he⟩ := Option.ne_none_iff_exists'.1 hno
    have he : f'.error = some e := by simpa [Generator.buildError, hf] using he
    obtain ⟨f1', hp', hsame, -⟩ := Ssa.Func.prune_eq (Nat.zero_lt_of_lt hcur)
    obtain rfl : f1' = f1 := Except.ok.inj (hp'.symm.trans hp)
    cases (Ssa.Func.verify_eq_of_error (by rw [hsame, he])).symm.trans hv

/-- Both back ends accept the same scripts. What the check of the machine accepts can be assembled, and
what the first check of the function accepts compiles. -/
theorem back_ends_accept_alike (hs : s.AvoidsEntry b) :
    (s.Accepted .machine ↔ s.Accepted .ssa) ∧ (∀ k, ∃ r, s.build k = .ok r) ∧
      (∀ t g gr, s.replay .machine = .ok t → t.gen = .machine g → g.draft.error = none →
        Graph.build g.blocks.size g.succs = .ok gr → g.closed.verify gr = .ok () →
        ∃ o, (g.closed.layOut gr).assemble = .ok o) ∧
      ∀ t g f f₁ f₂ gr, s.replay .ssa = .ok t → t.gen = .ssa g → g.draft.error = none →
        g.func = some f → f.prune = .ok f₁ → f₁.verify = .ok (f₂, .ok gr) →
        ∃ f' p, f.compile = .ok (f', .ok p) :=
  ⟨accepted_iff hs, exists_build hs,
    fun _ _ _ ht hg herr hb hv => assembles_of_verify ht hg herr hb hv,
    fun _ _ _ _ _ _ ht hg herr hf hp hv => compiles_of_verify hs ht hg herr hf hp hv⟩

theorem back_ends_accept_swapLoop : swapLoop.AvoidsEntry .machine ∧ swapLoop.Accepted .machine ∧
    swapLoop.Accepted .ssa :=
  ⟨avoidsEntry_swapLoop, accepted_swapLoop,
    (back_ends_accept_alike avoidsEntry_swapLoop).1.1 accepted_swapLoop⟩

end Codesmith.Gen.Script
