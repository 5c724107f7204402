import Codesmith.Proofs.Describe.Computed
import Codesmith.Proofs.Describe.Settled
import Codesmith.Proofs.Gen.Rejections
import Codesmith.Proofs.Script.Typed

/-!
# Where descriptions start and end

A description starts with a sheet of one block, where the arguments are taken over and noted for the first
variables. It is finished by a return from its end, if control gets there. If nothing was rejected and the
sheet is strict, only a missing result can be wrong then, and the program that comes of the sheet ends as the
structured program that is laid out on it.
-/

namespace Codesmith

namespace Gen.Sheet

variable {args : Array Word}

/-! ## Sheets of functions that were begun -/

def begun (sig : Signature) (strict : Prop) : Sheet where
  chart := .ofSig sig
  items l := ((Chart.ofSig sig).block l).code.map .line
  known _ _ _ _ := False
  dead _ := False
  strict := strict

variable {A B : Sheet} {sig : Signature} {strict : Prop} {l : Label} {j : Nat}

theorem edge_begun (p l : Label) : ¬ (begun sig strict).Edge p l := by
  rw [Edge, Graph.Edge, begun, Chart.succs_ofSig]
  exact List.not_mem_nil

theorem begun_getElem? {it : Item} (h : ((begun sig strict).items l)[j]? = some it) :
    l = Graph.entry ∧ j < sig.params.length ∧ it = .line (.arg j j) := by
  rw [begun, List.getElem?_map] at h
  obtain ⟨a, ha, rfl⟩ := Option.map_eq_some_iff.1 h
  obtain ⟨hl, hj, rfl⟩ := Chart.ofSig_getElem?.1 ha
  exact ⟨hl, hj, rfl⟩

theorem begun_phis (l : Label) : ((begun sig strict).chart.block l).phis = [] := by
  simp only [begun, Chart.ofSig]
  split <;> rfl

theorem begun_exit (l : Label) : ((begun sig strict).chart.block l).exit = none := by
  simp only [begun, Chart.ofSig]
  split <;> rfl

theorem sound_begun (sig : Signature) (strict : Prop) : (begun sig strict).Sound where
  code l := by
    rw [begun, List.filterMap_map]
    exact List.filterMap_some.symm
  blank l hl := by
    show ((Chart.ofSig sig).block l).code.map _ = []
    rw [(Chart.consistent_ofSig sig).beyond l hl]
    rfl
  inside _ _ _ _ h := absurd h id
  within _ h := absurd h id
  start _ _ h := h
  alive h := h
  line _ _ _ _ _ _ h := absurd h id
  note _ _ _ _ _ _ _ h := absurd h id
  noted l j v x _ h := by
    obtain ⟨-, -, hit⟩ := begun_getElem? h
    cases hit
  reads l j a _ h x hx := by
    obtain ⟨-, -, hit⟩ := begun_getElem? h
    cases hit
    cases hx
  exits l e _ h := by
    rw [begun_exit] at h
    cases h
  edge _ _ _ _ _ _ h := absurd h id
  buried _ _ _ h := absurd h id
  phi l x _ h := by
    rw [begun_phis] at h
    cases h
  one p l _ _ h := absurd h (edge_begun p l)
  each l x e h := by
    rw [begun_phis] at h
    cases h

theorem shows_begun {g : Generator} (hg : g.Models (.ofSig sig)) (strict : Prop) :
    g.Shows (begun sig strict) where
  models := hg
  consistent := Chart.consistent_ofSig sig
  sound := sound_begun sig strict
  entry p := edge_begun p _
  reached l _ h := by
    rcases h with rfl | h
    · exact Graph.reaches_entry
    · exact absurd (begun_exit l) h

/-- The arguments are the first values, defined at the entry. -/
theorem defined_begun {i : Nat} (hi : i < sig.params.length) (strict : Prop) :
    (begun sig strict).Defined Graph.entry (begun sig strict).top i := by
  refine ⟨i, .arg i i, ?_, ?_, rfl⟩
  · simp [top, last, begun, Chart.ofSig, hi]
  · simp [begun, Chart.ofSig, hi]

/-! ## Taking over the arguments -/

/-- On a sheet that goes on from the entry, the arguments are taken over and noted. -/
structure Prologue (B : Sheet) (sig : Signature) : Prop where
  line : ∀ i < sig.params.length, (B.items Graph.entry)[i]? = some (.line (.arg i i))
  note : ∀ i < sig.params.length, (B.items Graph.entry)[sig.params.length + i]? = some (.note i i)

theorem Prologue.mono (h : A.Prologue sig) (hAB : A.Extends B) : B.Prologue sig where
  line i hi := hAB.getElem? (h.line i hi)
  note i hi := hAB.getElem? (h.note i hi)

/-- A run takes over the first `k` arguments in as many steps. -/
theorem Prologue.takes (h : B.Prologue sig) (hB : B.Sound) (hs : B.strict)
    (hargs : args.size = sig.params.length) (m : Memory) {k : Nat} (hk : k ≤ sig.params.length) :
    ∃ t, Walks (B.chart.step args) k (Chart.start m) t ∧ B.Stands Graph.entry k (fun _ => .zero) t ∧
      t.memory = m ∧ ∀ i < k, t.values i = args.getD i .zero := by
  induction k with
  | zero =>
    exact ⟨_, .refl _, ⟨rfl, rfl, hB.alive, fun v x hx => absurd hx (hB.start v x), hs⟩, rfl,
      fun i hi => absurd hi (Nat.not_lt_zero i)⟩
  | succ k ih =>
    obtain ⟨t, hw, ht, hm, hvalues⟩ := ih (Nat.le_of_succ_le hk)
    have hlt : k < args.size := hargs ▸ hk
    have hrun : (Act.arg k k).run args t.values t.memory =
        .ok (Function.update t.values k args[k], t.memory) := by
      rw [Act.run, fetch_natCast (Array.getElem?_eq_getElem hlt)]
      rfl
    refine ⟨_, hw.trans (.one (by rw [ht.step_line args hB (h.line k hk), hrun])), ht.line hB (h.line k hk) hrun,
      hm, fun i hi => ?_⟩
    rcases Nat.lt_succ_iff_lt_or_eq.1 hi with hi | rfl
    · rw [← hvalues i hi]
      exact Function.update_of_ne (by exact_mod_cast hi.ne) _ _
    · rw [Array.getD_eq_getD_getElem?, Array.getElem?_eq_getElem hlt]
      exact Function.update_self _ _ _

/-- After the arguments were taken over and noted, the first variables hold them. -/
theorem Prologue.begins (h : B.Prologue sig) (hB : B.Sound) (hs : B.strict)
    (hargs : args.size = sig.params.length) (m : Memory) :
    ∃ k t, Walks (B.chart.step args) k (Chart.start m) t ∧ t.memory = m ∧
      B.Stands Graph.entry (sig.params.length + sig.params.length) (fun v => args.getD v .zero) t := by
  obtain ⟨t, hw, ht, hm, hvalues⟩ := h.takes hB hs hargs m le_rfl
  have hnotes : ∀ k ≤ sig.params.length, B.Stands Graph.entry (sig.params.length + k)
      (fun v => if v < k then args.getD v .zero else .zero) t := by
    intro k hk
    induction k with
    | zero => simpa using ht
    | succ k ih =>
      have hnote := (ih (Nat.le_of_succ_le hk)).note hB (h.note k hk)
      rw [hvalues k hk] at hnote
      rw [← Nat.add_assoc]
      convert hnote using 1
      funext v
      rcases lt_trichotomy v k with hv | rfl | hv
      · rw [Function.update_of_ne hv.ne, if_pos hv, if_pos (hv.trans (Nat.lt_succ_self k))]
      · rw [Function.update_self, if_pos (Nat.lt_succ_self v)]
      · rw [Function.update_of_ne hv.ne', if_neg hv.not_gt, if_neg (Nat.not_lt.2 hv)]
  refine ⟨_, t, hw, hm, ?_⟩
  convert hnotes _ le_rfl using 1
  funext v
  split
  · rfl
  · rename_i hv
    rw [Array.getD_eq_getD_getElem?, Array.getElem?_eq_none (hargs ▸ not_lt.1 hv)]
    rfl

end Gen.Sheet

/-! ## Missing results -/

namespace Gen

variable {c : Chart}

theorem MachineDraft.Models.terminate_missing {g : MachineDraft} (h : g.Models c) (hc : c.Consistent)
    (hl : c.Unended) (hres : c.sig.result.isVoid = false) :
    g.terminate (.ret none) = g.fail (.missingResult c.sig.result) := by
  rw [MachineDraft.terminate, (h.live_iff hc).2 hl, Draft.checkExit, Draft.checkResult, h.draft.sig, hres]
  rfl

theorem SsaDraft.Models.terminate_missing {g : SsaDraft} (h : g.Models c) (hc : c.Consistent)
    (hl : c.Unended) (hres : c.sig.result.isVoid = false) :
    g.terminate (.ret none) = g.fail (.missingResult c.sig.result) := by
  rw [SsaDraft.terminate, (h.live_iff hc).2 hl, Draft.checkExit, Draft.checkResult, h.draft.sig, hres]
  rfl

/-- A function that has to return something is refused if its end returns nothing. -/
theorem Generator.Models.finalize_missing {g : Generator} (h : g.Models c) (hc : c.Consistent)
    (hl : c.Unended) (hres : c.sig.result.isVoid = false) :
    ∃ g' e, (g.terminate (.ret none)).finalize = .ok (g', .error e) ∧
      e.reason = .missingResult c.sig.result := by
  have hfail : ∀ {d : Draft} (place : String), d.error = none →
      (d.fail place (.missingResult c.sig.result)).error =
        some ⟨d.backend, d.name, place, d.position, .missingResult c.sig.result⟩ := fun place hd => by
    rw [Draft.fail, hd]
    rfl
  cases g with
  | machine g =>
    have h : g.Models c := h
    rw [Generator.terminate, h.terminate_missing hc hl hres]
    obtain ⟨g', hg'⟩ := finalize_of_error (g := .machine (g.fail _)) h.draft.finalized (hfail _ h.draft.error)
    exact ⟨g', _, hg', rfl⟩
  | ssa g =>
    have h : g.Models c := h
    rw [Generator.terminate, h.terminate_missing hc hl hres]
    obtain ⟨g', hg'⟩ := finalize_of_error (g := .ssa (g.fail _)) h.draft.finalized (hfail _ h.draft.error)
    exact ⟨g', _, hg', rfl⟩

end Gen

namespace Describe

open Gen
open Direct (LaidAll EndsAt)

variable {s s' : Sketch} {A B : Sheet} {position : Position} {sig : Signature}
variable {g : Generator}

/-! ## Starting -/

/-- Variables are made of the arguments. -/
theorem argVars_draws {i : Nat} {ts : List Ty} {u : Unit} (hd : Drawn s A) (hr : AllReady s A)
    (hsize : s.vars.size = i) (hlen : i + ts.length ≤ A.chart.sig.params.length)
    (hts : ∀ (k : Nat) t, ts[k]? = some t → A.HasTy ((i + k : Nat) : Int) t ∧ t.kind ≠ .invalid ∧
      A.Defined A.chart.current A.top ((i + k : Nat) : Int))
    (h : argVars position i ts s = .ok (u, s')) :
    ∃ A', Progress (fun _ => False) s A s' A' ∧ s'.types = s.types ++ ts ∧ s'.error = s.error ∧
      A'.chart = A.chart ∧ A'.top = A.top + ts.length ∧
      ∀ k < ts.length, (A'.items A.chart.current)[A.top + k]? = some (.note (i + k) ((i + k : Nat) : Int)) := by
  induction ts generalizing i s A with
  | nil =>
    cases h
    exact ⟨A, .refl hd hr, by simp, rfl, rfl, rfl, nofun⟩
  | cons t ts ih =>
    replace h := get_ok h
    obtain ⟨⟨ref, g⟩, u', hlift, h⟩ := bind_ok h
    obtain ⟨harg, hu⟩ := lift_ok hlift
    obtain rfl := hu.symm
    rw [List.length_cons] at hlen
    have hi : (0 : Int) ≤ i ∧ (i : Int) < A.chart.sig.params.length := by omega
    cases harg.symm.trans (hd.shows.models.arg hi)
    obtain ⟨_, s1, hset, h⟩ := bind_ok h
    cases hset
    obtain ⟨w, s2, hvar, h⟩ := bind_ok h
    obtain ⟨hty, hkind, hdef⟩ := hts 0 t rfl
    obtain ⟨-, hsize2, -, hp⟩ := newVar_ok hvar hd hr hty hkind fun _ => hdef.held
    cases hvar
    subst hsize
    have hc := A.chart.adds_note s.vars.size s.vars.size
    have htop : (A.note s.vars.size s.vars.size).top = A.top + 1 := Sheet.push_top hc
    have hrest : ∀ (k : Nat) t', ts[k]? = some t' →
        (A.note s.vars.size s.vars.size).HasTy ((s.vars.size + 1 + k : Nat) : Int) t' ∧ t'.kind ≠ .invalid ∧
          (A.note s.vars.size s.vars.size).Defined A.chart.current (A.note s.vars.size s.vars.size).top
            ((s.vars.size + 1 + k : Nat) : Int) := fun k t' hk => by
      rw [show s.vars.size + 1 + k = s.vars.size + (k + 1) by omega]
      obtain ⟨hty', hkind', j, a, hj, ha, hout⟩ := hts (k + 1) t' hk
      exact ⟨hty'.push hc, hkind', j, a, by omega, hp.grows.ext.getElem? ha, hout⟩
    obtain ⟨A', hp', htypes, herr, hchart, htop', hnotes⟩ := ih hp.drawn hp.ready hsize2
      (by show s.vars.size + 1 + ts.length ≤ A.chart.sig.params.length; omega) hrest h
    refine ⟨A', (hp.trans hp' hd).congr fun v => or_self_iff, ?_, herr, hchart, ?_, fun k hk => ?_⟩
    · rw [htypes]
      simp [Sketch.types]
    · rw [htop', htop, List.length_cons]
      omega
    · cases k with
      | zero => exact hp'.grows.ext.getElem? (A.push_item _ _)
      | succ k =>
        have hnote := hnotes k (Nat.lt_of_succ_lt_succ hk)
        rw [htop, show s.vars.size + 1 + k = s.vars.size + (k + 1) by omega,
          show A.top + 1 + k = A.top + (k + 1) by omega] at hnote
        exact hnote

/-- A description that has just started on a sheet: the arguments are taken over, and nothing else is
there. -/
structure Started (config : Config) (id : FuncId) (sig : Signature) (s : Sketch) (A : Sheet) : Prop where
  drawn : Drawn s A
  ready : Ready s A fun _ => True
  chart : A.chart = .ofSig sig
  top : A.top = sig.params.length + sig.params.length
  prologue : A.Prologue sig
  types : s.types = sig.params
  id : s.id = id
  sig : s.sig = sig
  error : s.error = none
  loops : s.loops = []
  finished : s.finished = false
  profile : s.profileError = config.profileError

theorem result_of_unfit (h : unfit? sig position = none) :
    sig.result.isVoid = true ∨ sig.result.kind ≠ .invalid := by
  rw [unfit?] at h
  split at h
  · cases h
  · split at h
    · rename_i hres
      exact (Bool.or_eq_true_iff.1 hres).imp_right kind_ne_invalid_of_isScalar
    · cases h

theorem kind_of_unfit (h : unfit? sig position = none) : ∀ t ∈ sig.params, t.kind ≠ .invalid := fun t ht =>
  kind_ne_invalid_of_isScalar (Script.params_of_unfit h t ht)

/-- The sketch of a function that was just begun, without variables. -/
theorem drawn_begun (id : FuncId) (profileError : Option String) (hg : g.Models (.ofSig sig))
    (hres : sig.result.isVoid = true ∨ sig.result.kind ≠ .invalid) (strict : Prop) :
    Drawn { id, sig, gen := g, profileError } (.begun sig strict) ∧
      AllReady { id, sig, gen := g, profileError } (.begun sig strict) := by
  refine ⟨⟨Sheet.shows_begun hg strict, rfl, hres, fun v x hx => ?_, fun v x hx => ?_, by simp, nofun, .nil⟩,
    Sheet.begun_exit _, ⟨False.elim, nofun⟩, fun _ v x _ hx => ?_⟩
  all_goals simp at hx

/-- A description starts on a sheet, which may be strict or not. -/
theorem start_draws {config : Config} {number : Nat} {name : String}
    (h : Sketch.start config number name sig position = .ok (.ok s)) (strict : Prop) :
    ∃ A, A.strict = strict ∧ Started config ⟨number, name⟩ sig s A := by
  rw [Sketch.start] at h
  split at h
  · cases h
  rename_i b _
  split at h
  · cases h
  rename_i hfit
  obtain ⟨g, hg, hm⟩ := Generator.start_models b (some position) name (kind_of_unfit hfit)
  dsimp only at h
  rw [hg] at h
  obtain ⟨hd, hr⟩ := drawn_begun ⟨number, name⟩ config.profileError hm (result_of_unfit hfit) strict
  have htop : (Sheet.begun sig strict).top = sig.params.length := by
    simp [Sheet.top, Sheet.last, Sheet.begun, Chart.ofSig]
  have hts : ∀ (k : Nat) t, sig.params[k]? = some t →
      (Sheet.begun sig strict).HasTy ((0 + k : Nat) : Int) t ∧ t.kind ≠ .invalid ∧
        (Sheet.begun sig strict).Defined Graph.entry (Sheet.begun sig strict).top ((0 + k : Nat) : Int) := by
    intro k t hk
    have hlt : k < sig.params.length := (List.getElem?_eq_some_iff.1 hk).1
    rw [Nat.zero_add]
    refine ⟨⟨?_, ?_⟩, kind_of_unfit hfit t (List.mem_of_getElem? hk), Sheet.defined_begun hlt strict⟩
    · show (if 0 ≤ (k : Int) ∧ (k : Int) < sig.params.length then _ else none) ≠ none
      rw [if_pos ⟨Int.natCast_nonneg k, Int.ofNat_lt.2 hlt⟩]
      exact Option.some_ne_none _
    · show (fetch? sig.params.toArray (k : Int)).getD .void = t
      rw [fetch?_natCast, List.getElem?_toArray, hk]
      rfl
  set s0 : Sketch := { id := ⟨number, name⟩, sig, gen := g, profileError := config.profileError }
  cases hvars : argVars position 0 sig.params s0 with
  | error f =>
    rw [hvars] at h
    cases h
  | ok r =>
    rw [hvars] at h
    cases h
    obtain ⟨A, hp, htypes, herr, hchart, htop', hnotes⟩ := argVars_draws hd hr
      (show s0.vars.size = 0 from rfl) (show 0 + sig.params.length ≤ _ from (Nat.zero_add _).le) hts hvars
    have hext := hp.grows.ext
    refine ⟨A, propext hext.strict, hp.drawn, hp.ready, hchart, by rw [htop', htop], ⟨fun i hi => ?_, fun i hi => ?_⟩,
      htypes, hp.evolves.id, hp.evolves.sig, herr, hp.feeds.outside rfl, hp.evolves.finished, hp.evolves.profile⟩
    · refine hext.getElem? ?_
      simp [Sheet.begun, Chart.ofSig, hi]
    · have hnote := hnotes i hi
      rwa [htop, Nat.zero_add] at hnote

/-! ## Finishing -/

/-- The generator at the end of a description, which returns if control gets there. -/
def Sketch.closing (s : Sketch) (position : Position) : Gen.Generator :=
  if s.dead then s.gen else (s.gen.setPosition (some position)).terminate (.ret none)

/-- What comes of a description whose code was finished. -/
def Sketch.outcome (s : Sketch) (g : Gen.Generator) : Except Gen.Failure Gen.Program → Except FinishError Code
  | .error e => .error (.failed s.id.name e)
  | .ok program =>
    match s.profileError with
    | some e => .error (.profile e)
    | none => .ok ⟨s.id.name, s.sig, g.backend, program⟩

theorem finish_run (position : Position) (hfinished : s.finished = false) (herr : s.error = none)
    (hlive : s.gen.terminated = .ok false) {r : Except Failure Program}
    (hg : (s.closing position).finalize = .ok (g, r)) :
    finish position s = .ok (s.outcome g r, { s with gen := g, finished := true }) := by
  have hget : ∀ t : Sketch, (get : Edit Sketch) t = .ok (t, t) := fun _ => rfl
  have hmark : (modify fun t : Sketch => { t with finished := true } : Edit Unit) s =
      .ok ((), { s with finished := true }) := rfl
  have hended : (liftM s.gen.terminated : Edit Bool) { s with finished := true } =
      .ok (false, { s with finished := true }) := by rw [hlive]; rfl
  have hfinal : (liftM (s.closing position).finalize : Edit _)
      { s with gen := s.closing position, finished := true } =
      .ok ((g, r), { s with gen := s.closing position, finished := true }) := by rw [hg]; rfl
  rw [finish, bind_of_ok (hget s), if_neg (by simp [hfinished])]
  conv_lhs => rw [herr]
  refine (bind_of_ok hmark).trans ((bind_of_ok hended).trans ?_)
  have hrest : ∀ t : Sketch, t = { s with gen := s.closing position, finished := true } →
      compileCode t = .ok (s.outcome g r, { s with gen := g, finished := true }) := by
    rintro _ rfl
    refine (bind_of_ok (hget _)).trans ((bind_of_ok hfinal).trans ?_)
    rcases r with e | p
    · rfl
    · rw [Sketch.outcome]
      dsimp only
      cases s.profileError <;> rfl
  by_cases hdead : s.dead = true
  · have hclosing : s.closing position = s.gen := by rw [Sketch.closing, if_pos hdead]
    rw [if_neg (by simp [hdead])]
    exact hrest _ (by rw [hclosing])
  · have hclosing : s.closing position = (s.gen.setPosition (some position)).terminate (.ret none) := by
      rw [Sketch.closing, if_neg hdead]
    rw [if_pos (by simp [hdead])]
    exact (bind_of_ok (terminate_run _ position _)).trans (hrest _ (by rw [hclosing]))

theorem finish_ends (position : Position) (hd : Drawn s A) (hr : AllReady s A) (herr : s.error = none)
    (hfinished : s.finished = false) (hprofile : s.profileError = none) (hs : A.strict) (hidle : ∀ l, ¬ A.Idle l) :
    if s.dead = false ∧ s.sig.result.isVoid = false then
      ∃ e s', finish position s = .ok (.error (.failed s.id.name e), s') ∧
        e.reason = .missingResult s.sig.result
    else ∃ B code s', finish position s = .ok (.ok code, s') ∧ code.program.Performs B.chart ∧ A.Extends B ∧
      B.Sound ∧ B.chart.sig = s.sig ∧ ∀ l j, point s A = some (l, j) → EndsAt B l j (.ret none) := by
  have hlive : s.gen.terminated = .ok false := by
    rw [hd.shows.models.terminated hd.shows.consistent, hr.exit]
    rfl
  cases hdead : s.dead with
  | true =>
    -- Control does not get here, so there is nothing to return from.
    rw [if_neg (by simp)]
    have hends : ∀ l, Graph.Reaches A.chart.succs l → (A.chart.block l).exit ≠ none := fun l hl hexit =>
      hidle l ⟨hd.shows.consistent.reaches_lt hl, by
        rintro rfl
        exact hd.shows.sound.not_dead hl (hr.dead.2 hdead), hd.shows.sound.not_dead hl, hexit⟩
    obtain ⟨g, p, hfin, hperf⟩ := hd.shows.models.finalize_ok hd.shows.consistent
      (hd.shows.sound.wellFormed hs hd.shows.consistent hends) hd.shows.entry
    have hrun := finish_run position hfinished herr hlive (by rw [Sketch.closing, if_pos hdead]; exact hfin)
    rw [Sketch.outcome, hprofile] at hrun
    exact ⟨A, _, _, hrun, hperf, .refl A, hd.shows.sound, hd.sig, fun l j hq => by simp [point, hdead] at hq⟩
  | false =>
    have hshows := hd.shows.setPosition (some position)
    have hclosing : s.closing position = (s.gen.setPosition (some position)).terminate (.ret none) := by
      rw [Sketch.closing, if_neg (by simp [hdead])]
    cases hvoid : s.sig.result.isVoid with
    | false =>
      rw [if_pos ⟨rfl, rfl⟩]
      obtain ⟨g, e, hfin, he⟩ := hshows.models.finalize_missing hshows.consistent hr.exit (hd.sig ▸ hvoid)
      have hrun := finish_run position hfinished herr hlive (hclosing ▸ hfin)
      exact ⟨e, _, hrun, hd.sig ▸ he⟩
    | true =>
      rw [if_neg (by simp)]
      have hc := A.chart.exits_terminate (.ret none)
      have hB := hshows.terminate (e := .ret none) hr.exit (by simpa [Exit.Fits, hd.sig] using hvoid) (by simp [Exit.reads])
        (by simp [Exit.targets])
      have hends : ∀ l, Graph.Reaches (A.leave (A.chart.terminate (.ret none))).chart.succs l →
          ((A.leave (A.chart.terminate (.ret none))).chart.block l).exit ≠ none := fun l hl hexit => by
        refine hidle l (Sheet.idle_leave hc ⟨hB.consistent.reaches_lt hl, ?_, hB.sound.not_dead hl, hexit⟩)
        rintro rfl
        exact Sheet.left_leave hc (hB.sound.not_dead hl) hexit
      obtain ⟨g, p, hfin, hperf⟩ := hB.models.finalize_ok hB.consistent
        (hB.sound.wellFormed hs hB.consistent hends) hB.entry
      have hrun := finish_run position hfinished herr hlive (hclosing ▸ hfin)
      rw [Sketch.outcome, hprofile] at hrun
      refine ⟨_, _, _, hrun, hperf, Sheet.extends_leave hc hr.exit, hB.sound, hc.sig.trans hd.sig, fun l j hq => ?_⟩
      obtain ⟨rfl, rfl⟩ : A.chart.current = l ∧ A.top = j := by simpa [point, hdead] using hq
      exact ⟨rfl, (hc.exit _).trans (if_pos rfl)⟩

end Describe

end Codesmith
