import Codesmith.Proofs.Gen.Replay

/-!
# The first rejected call

`Script.rejections` lists what the calls of a script are owed, in order, no matter what the generator makes of
it. Finalizing tells the first of them. In single assignment form a failure of the function is told only if the
draft has none, so it gives way to every other one, even to one that came later.
-/

namespace Codesmith.Gen

/-! ## What calls are owed -/

/-- What calls are owed, in order. -/
def Session.rejections (s : Session) : List Call → List Failure
  | [] => []
  | call :: calls =>
    (s.gen.owed (s.verdict call)).toList ++
      match s.perform call with
      | .ok t => t.rejections calls
      | .error _ => []

/-- What the calls of a script are owed, from its beginning on. -/
def Script.rejections (s : Script) (b : Backend) : List Failure :=
  (s.beginning b).toList ++ (s.begun b).rejections s.calls

namespace Failure

/-- An error describes a failure: it is the failure, or it is the error of the function that the failure
is, as it comes of compiling. -/
def Describes (e f : Failure) : Prop :=
  e = f ∨ ∃ cause, f.buildError? = some cause ∧
    e = { backend := f.backend, func := f.func, reason := .compiling (.verify (.built f.func cause)) }

end Failure

namespace Session

variable {s : Session} {b : Backend} {name : String}

theorem find?_toList {α : Type} (r : Option α) (p : α → Bool) : r.toList.find? p = r.filter p := by
  cases r with
  | none => rfl
  | some a => cases hp : p a <;> simp [Option.filter_some, hp]

/-- What calls are owed tells the back end and the function. -/
theorem owed_of_inUse (h : s.gen.InUse b name name) {calls : List Call} {f : Failure} (hf : f ∈ s.rejections calls) :
    f.backend = b ∧ f.func = name := by
  induction calls generalizing s with
  | nil => exact absurd hf List.not_mem_nil
  | cons call calls ih =>
    obtain ⟨t, ht, hnotes⟩ := notes_perform h call
    rw [rejections, ht] at hf
    rcases List.mem_append.1 hf with hf | hf
    · cases hverdict : s.verdict call with
      | ok u =>
        rw [hverdict] at hf
        cases hf
      | error reason =>
        rw [hverdict] at hf
        obtain rfl := List.mem_singleton.1 hf
        exact ⟨h.backend, h.named⟩
    · exact ih (hnotes.inUse b name name h) hf

/-- All calls return. The draft remembers the first failure that it keeps, and the function the first of the
others, as long as the draft has none. -/
theorem notes_all (h : s.gen.InUse b name name) (calls : List Call) :
    ∃ t, calls.foldlM perform s = .ok t ∧ t.gen.InUse b name name ∧
      t.gen.draft.error = s.gen.draft.error.or ((s.rejections calls).find? Failure.kept) ∧
      (t.gen.draft.error = none → t.gen.buildError =
        s.gen.buildError.or ((s.rejections calls).findSome? Failure.buildError?)) := by
  induction calls generalizing s with
  | nil => exact ⟨s, rfl, h, by simp [rejections], fun _ => by simp [rejections]⟩
  | cons call calls ih =>
    obtain ⟨t, ht, hnotes⟩ := notes_perform h call
    obtain ⟨u, hu, huse, herror, hbuild⟩ := ih (hnotes.inUse b name name h)
    have hrejections : s.rejections (call :: calls) =
        (s.gen.owed (s.verdict call)).toList ++ t.rejections calls := by
      rw [rejections, ht]
    refine ⟨u, by rw [List.foldlM_cons, ht]; exact hu, huse, ?_, fun hnone => ?_⟩
    · rw [hrejections, List.find?_append, find?_toList, herror, hnotes.error, Option.or_assoc]
    · have hnone' : t.gen.draft.error = none := by
        rw [herror] at hnone
        exact (Option.or_eq_none_iff.1 hnone).1
      rw [hrejections, List.findSome?_append, hbuild hnone, hnotes.buildError hnone', Option.or_assoc]
      cases s.gen.owed (s.verdict call) <;> simp

end Session

/-! ## Finishing -/

namespace Script

variable {s : Script} {b : Backend}

/-- A script with rejections cannot be built. The failure is the first that the draft keeps, or else the
first at all, as the function tells it. -/
theorem build_of_rejections {f : Failure} {fs : List Failure} (h : s.rejections b = f :: fs) :
    ∃ e, s.build b = .ok (.error e) ∧
      match (f :: fs).find? Failure.kept with
      | some g => e = g
      | none => e.Describes f := by
  obtain ⟨hbegun, herror, hbuild⟩ := s.notes_begun b
  obtain ⟨t, ht, huse, herror', hbuild'⟩ := Session.notes_all hbegun s.calls
  have hbuild_eq : ∀ {g e}, t.gen.finalize = .ok (g, .error e) → s.build b = .ok (.error e) := fun hfin => by
    rw [build, replay, ht]
    simp only [bind, Except.bind, hfin]
    rfl
  have hkept : (s.beginning b).filter Failure.kept = s.beginning b := by
    unfold beginning
    cases s.sig.params.find? fun t => t.kind = .invalid with
    | none => rfl
    | some t => cases b <;> rfl
  have hfind : t.gen.draft.error = (f :: fs).find? Failure.kept := by
    rw [← h, rejections, List.find?_append, Session.find?_toList, hkept, herror', herror]
  cases hfirst : (f :: fs).find? Failure.kept with
  | some g =>
    obtain ⟨g', hfin⟩ := Generator.finalize_of_error huse.finalized (hfind.trans hfirst)
    exact ⟨g, hbuild_eq hfin, rfl⟩
  | none =>
    -- The beginning is owed nothing, so the first failure is that of a call, which the function remembers.
    have hnone : ∀ g ∈ s.rejections b, ¬ g.kept = true := List.find?_eq_none.1 (h ▸ hfirst)
    have hbeginning : s.beginning b = none := by
      by_contra hne
      obtain ⟨g, hg⟩ := Option.ne_none_iff_exists'.1 hne
      refine hnone g (List.mem_append_left _ (by simp [hg])) ?_
      rw [hg, Option.filter_some] at hkept
      by_contra hno
      rw [if_neg hno] at hkept
      cases hkept
    have hcalls : (s.begun b).rejections s.calls = f :: fs := by
      rw [← h, rejections, hbeginning]
      rfl
    obtain ⟨hbackend, hfunc⟩ := Session.owed_of_inUse hbegun (hcalls ▸ List.mem_cons_self)
    have hf : ¬ f.kept = true := hnone f (h ▸ List.mem_cons_self)
    rw [Failure.kept_iff] at hf
    obtain ⟨cause, hcause⟩ := Option.ne_none_iff_exists'.1 hf
    have hnone' : t.gen.draft.error = none := hfind.trans hfirst
    have hremembers : t.gen.buildError = some cause := by
      rw [hbuild' hnone', hbuild, hcalls, List.findSome?_cons_of_isSome (by rw [hcause]; rfl), hcause]
      rfl
    obtain ⟨g', hfin⟩ := huse.finalize_of_buildError hnone' hremembers
    exact ⟨_, hbuild_eq hfin, .inr ⟨cause, hcause, by rw [hbackend, hfunc]⟩⟩

/-- A script with a rejected call is refused, and the first one is reported, whatever calls follow it. The
exception are scripts where the draft leaves the first one to the function and has to reject a later call
itself: then that call is reported. -/
theorem first_rejection_reported {f : Failure} {fs : List Failure} (h : s.rejections b = f :: fs) :
    ∃ e, s.build b = .ok (.error e) ∧ (f.kept = true ∨ (∀ g ∈ fs, g.kept = false) → e.Describes f) ∧
      ∀ g, (f :: fs).find? Failure.kept = some g → e = g := by
  obtain ⟨e, he, hmatch⟩ := build_of_rejections h
  refine ⟨e, he, fun hf => ?_, fun g hg => by rwa [hg] at hmatch⟩
  by_cases hkept : f.kept = true
  · rw [List.find?_cons_of_pos hkept] at hmatch
    exact .inl hmatch
  · have hnone : (f :: fs).find? Failure.kept = none := by
      rw [List.find?_cons_of_neg hkept, List.find?_eq_none]
      exact fun g hg => by simp [hf.resolve_left hkept g hg]
    rw [hnone] at hmatch
    exact hmatch

/-- Join a value to a constant, and go on with other calls. -/
def strayJoin (calls : List Call) : Script where
  name := "f"
  sig := ⟨[], .i64⟩
  calls := [.value (.const .i64 1), .addIncoming 0 0 0] ++ calls

theorem first_rejection_strayJoin :
    (∃ f fs, (strayJoin [.terminate (.ret (some 7)), .setBlock 5]).rejections .machine = f :: fs ∧
      f.reason = .notPhi 0 ∧ fs.length = 2 ∧
      ∃ e, (strayJoin [.terminate (.ret (some 7)), .setBlock 5]).build .machine = .ok (.error e) ∧
        e.Describes f) ∧
    ∃ f fs, (strayJoin [.addIncoming 5 0 0, .terminate (.ret (some 0))]).rejections .ssa = f :: fs ∧
      f.reason = .notPhi 0 ∧ fs.length = 1 ∧
      ∃ e, (strayJoin [.addIncoming 5 0 0, .terminate (.ret (some 0))]).build .ssa = .ok (.error e) ∧
        e.Describes f := by
  obtain ⟨e, he, hfirst, -⟩ := first_rejection_reported (b := .machine)
    (s := strayJoin [.terminate (.ret (some 7)), .setBlock 5]) rfl
  obtain ⟨e', he', hfirst', -⟩ := first_rejection_reported (b := .ssa)
    (s := strayJoin [.addIncoming 5 0 0, .terminate (.ret (some 0))]) rfl
  refine ⟨⟨_, _, rfl, rfl, rfl, e, he, hfirst (.inl rfl)⟩, _, _, rfl, rfl, rfl, e', he', hfirst' (.inr fun g hg => ?_)⟩
  rw [List.mem_singleton.1 hg]
  rfl

/-- In single assignment form, a failure that came later is reported in place of the first. -/
theorem stray_join_forgotten : ∃ f fs e,
    (strayJoin [.terminate (.ret (some (-7)))]).rejections .ssa = f :: fs ∧ f.reason = .notPhi 0 ∧
      (strayJoin [.terminate (.ret (some (-7)))]).build .ssa = .ok (.error e) ∧
        e.reason = .undefinedValue (-7) ∧ ¬ e.Describes f := by
  refine ⟨_, _, _, rfl, rfl, rfl, rfl, ?_⟩
  rintro (h | ⟨cause, -, h⟩)
  · cases congrArg Failure.reason h
  · cases congrArg Failure.reason h

end Script

end Codesmith.Gen
