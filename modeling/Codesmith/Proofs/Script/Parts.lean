import Codesmith.Proofs.Describe.DoLoops
import Codesmith.Proofs.Script.Operations
import Codesmith.Proofs.Script.Typed

/-!
# Parts as they are read

A part of a script that is described without a rejection adds to the sketch the statements that the reading
has for it, and leaves the variables and names that the reading leaves; `Reads` says this of a part.

A part may also stop on the way. What it has described by then is drawn on a sheet that the sheet of the
whole part extends. So each part comes with the parts that stop within it, and `Stops` tells how such a part
relates to the whole.
-/

namespace Codesmith.Script

open Gen (Sheet)
open Direct (Node SteadyAll)
open Describe

variable {α β : Type} {sc sc' sc1 sc2 : Scope} {s s' : Sketch} {A A' B B' : Sheet} {w w' : Workspace Env}
  {nodes nodes' : List Node} {position : Position}
variable {n : Name} {v : Value} {x c r : Run α} {f : α → Run β} {b : β} {e : Edit α} {a out : α}
  {C C' : Set (Run α)}

/-! ## Rejections stay -/

/-- A description that forgets no rejection. -/
class StickyRun (r : Run α) : Prop where
  sticky : Sticky r

/-- A part that forgets no rejection, if it is given. -/
class StickyPart (p : Option (Run α)) : Prop where
  sticky : ∀ r ∈ p, StickyRun r

instance (x : Run α) (f : α → Run β) [hx : StickyRun x] [hf : ∀ a, StickyRun (f a)] :
    StickyRun (x >>= f) :=
  ⟨hx.sticky.bind fun a => (hf a).sticky⟩

instance (c : Prop) [Decidable c] (x y : Run α) [StickyRun x] [StickyRun y] :
    StickyRun (if c then x else y) := by
  split <;> infer_instance

instance (priority := low) stickyRun_of_tame (r : Run α) [h : TameRun ⟨[], .void⟩ r] : StickyRun r :=
  ⟨(h.keeps True).sticky⟩

instance (e : Edit α) [he : Settled e] : StickyRun (here e) := by
  refine ⟨fun w hw => ?_⟩
  obtain ⟨s, hs, herr⟩ := hw
  rw [here, edit_run, hs]
  dsimp only
  cases h : e s with
  | error f => exact ⟨s, hs, herr⟩
  | ok r =>
    have hlt := (Array.getElem?_eq_some_iff.1 hs).1
    exact ⟨r.2, by simp [hlt], (he.holds s r.1 r.2 h).error herr⟩

instance : StickyPart (none : Option (Run α)) :=
  ⟨nofun⟩

instance (r : Run α) [h : StickyRun r] : StickyPart (some r) :=
  ⟨fun _ hr => Option.some.inj hr ▸ h⟩

instance (p : Option (Run Unit)) [h : StickyPart p] : StickyRun (inScope p) := by
  cases p with
  | none => exact ⟨fun _ hw => hw⟩
  | some r =>
    have := h.sticky r rfl
    unfold inScope
    infer_instance

/-! ## Workspaces -/

def put (w : Workspace Env) (s : Sketch) : Workspace Env :=
  { w with sketches := #[s] }

/-- The workspace has one sketch, which has the variables of the scope, and the names of the scope. -/
structure Scope.At (sc : Scope) (w : Workspace Env) (s : Sketch) : Prop extends sc.Fits s where
  only : w.sketches = #[s]
  named : w.own.names = sc.names
  valid : sc.Valid

theorem Scope.Valid.grow (h : sc.Valid) (types : List Ty) : (sc.grow types).Valid where
  first := h.first
  params := h.params.trans (List.prefix_append _ _)
  names p hp := (h.names p hp).grow types

theorem Scope.Valid.bind (h : sc.Valid) (hv : sc.Has v) : (sc.bind n v).Valid where
  first := h.first
  params := h.params
  names p hp := by
    rcases List.mem_cons.1 hp with rfl | hp
    · exact hv
    · exact h.names p (List.mem_of_mem_filter hp)

theorem Scope.At.put (h : sc.At w s) {types : List Ty} (hs : (sc.grow types).Fits s') :
    (sc.grow types).At (put w s') s' :=
  ⟨hs, rfl, h.named, h.valid.grow types⟩

theorem Scope.At.settles (h : sc.At w s) (hs : s.Settles s') : sc.At (Script.put w s') s' :=
  ⟨h.toFits.settles hs, rfl, h.named, h.valid⟩

theorem Scope.At.not_rejected (h : sc.At w s) (hw : ¬ Rejected w) : s.error = none := by
  by_contra herr
  exact hw ⟨s, by rw [h.only]; rfl, Option.isSome_iff_ne_none.2 herr⟩

theorem here_run (hw : w.sketches = #[s]) (e : Edit α) : (here e : Run α) w = match e s with
    | .error f => (.error f, w)
    | .ok (a, s') => (.ok a, put w s') := by
  rw [here, edit_run, hw, show (#[s] : Array Sketch)[0]? = some s from rfl]
  dsimp only
  cases e s with
  | error f => rfl
  | ok r => simp [put]

/-- The steps of a description of which nothing was rejected. -/
theorem bind_accepted (h : (x >>= f) w = (.ok b, w')) (hw : ¬ Rejected w')
    (hf : ∀ a, StickyRun (f a) := by intro a; first | infer_instance | (cases a <;> infer_instance)) :
    ∃ a w1, x w = (.ok a, w1) ∧ ¬ Rejected w1 ∧ f a w1 = (.ok b, w') := by
  rw [bind_run] at h
  cases hx : x w with
  | mk r w1 =>
    rw [hx] at h
    cases r with
    | error e => cases h
    | ok a =>
      refine ⟨a, w1, rfl, fun hw1 => hw ?_, h⟩
      have := (hf a).sticky w1 hw1
      rwa [show f a w1 = _ from h] at this

theorem here_accepted (hat : sc.At w s) (h : (here e : Run α) w = (.ok a, w')) (hw : ¬ Rejected w') :
    ∃ s', e s = .ok (a, s') ∧ s'.error = none ∧ w' = put w s' := by
  rw [here_run hat.only] at h
  split at h
  · cases h
  · rename_i b s' he
    cases h
    refine ⟨s', he, ?_, rfl⟩
    by_contra herr
    exact hw ⟨s', rfl, Option.isSome_iff_ne_none.2 herr⟩

theorem Scope.At.here [he : Settled e] (hat : sc.At w s) (h : (here e >>= f) w = (.ok b, w'))
    (hw : ¬ Rejected w')
    (hf : ∀ a, StickyRun (f a) := by intro a; first | infer_instance | (cases a <;> infer_instance)) :
    ∃ a s1, e s = .ok (a, s1) ∧ s1.error = none ∧ sc.At (Script.put w s1) s1 ∧
      f a (Script.put w s1) = (.ok b, w') := by
  obtain ⟨a, w1, hx, hw1, hrest⟩ := bind_accepted h hw hf
  obtain ⟨s1, hs1, herr, rfl⟩ := here_accepted hat hx hw1
  exact ⟨a, s1, hs1, herr, hat.settles (he.holds s a s1 hs1), hrest⟩

/-! ## Parts that stop -/

/-- The description stops with a sketch that is drawn on a sheet which the given one extends. -/
def Stops (c : Run α) (w : Workspace Env) (B : Sheet) : Prop :=
  ∃ f w' s A, c w = (.error f, w') ∧ w'.sketches = #[s] ∧ Drawn s A ∧ Ready s A (fun _ => True) ∧
    A.Extends B

theorem Stops.mono (h : Stops c w B) (hB : B.Extends B') : Stops c w B' := by
  obtain ⟨f, w', s, A, hc, hw', hd, hr, hA⟩ := h
  exact ⟨f, w', s, A, hc, hw', hd, hr, hA.trans hB⟩

theorem Stops.bind (h : Stops c w B) (f : α → Run β) : Stops (c >>= f) w B := by
  obtain ⟨e, w', s, A, hc, h⟩ := h
  exact ⟨e, w', s, A, by rw [bind_run, hc], h⟩

theorem Stops.after {w1 : Workspace Env} (hx : x w = (.ok a, w1)) (h : Stops (f a) w1 B) :
    Stops (x >>= f) w B := by
  obtain ⟨e, w', s, A, hc, h⟩ := h
  exact ⟨e, w', s, A, by rw [bind_run, hx]; exact hc, h⟩

theorem Stops.here (hw : w.sketches = #[s]) (he : e s = .ok (a, s')) (h : Stops (f a) (put w s') B) :
    Stops (here e >>= f) w B :=
  Stops.after (by rw [here_run hw, he]) h

/-! ## Parts -/

/-- From the given workspace a description adds statements to the sketch and yields a value; the
descriptions in `C` stop within it. -/
def ReadsFrom (w : Workspace Env) (s : Sketch) (r : Run α) (C : Set (Run α)) (sc : Scope)
    (nodes : List Node) (sc' : Scope) (out : α) : Prop :=
  ∀ A a w', sc.At w s → Drawn s A → Ready s A (fun _ => True) → (A.strict → SteadyAll nodes) →
    r w = (.ok a, w') → ¬ Rejected w' →
      a = out ∧ ∃ s' A', sc'.At w' s' ∧ Draws nodes s A s' A' ∧ ∀ c ∈ C, Stops c w A'

/-- A description adds statements to the sketch and yields a value. -/
def Reads (r : Run α) (C : Set (Run α)) (sc : Scope) (nodes : List Node) (sc' : Scope) (out : α) : Prop :=
  ∀ w s, ReadsFrom w s r C sc nodes sc' out

/-- A part that may be missing adds statements to the sketch. -/
def PartReads (p : Option (Run Unit)) (C : Set (Run Unit)) (sc : Scope) (nodes : List Node) (sc' : Scope) :
    Prop :=
  match p with
  | none => C = ∅ ∧ nodes = [] ∧ sc' = sc
  | some r => Reads r C sc nodes sc' ()

/-- A condition that may be missing adds statements to the sketch and yields a variable. -/
def TestReads (p : Option (Run (Option Value))) (C : Set (Run (Option Value))) (sc : Scope)
    (nodes : List Node) (c : Option Nat) (sc' : Scope) : Prop :=
  match p with
  | none => C = ∅ ∧ nodes = [] ∧ c = none ∧ sc' = sc
  | some r => ∃ v, Reads r C sc nodes sc' v ∧ c = some (conditionCell v) ∧ (sc'.Valid → ∀ u, v = some u → sc'.Has u)

theorem steadyAll_append (ns ms : List Node) : SteadyAll (ns ++ ms) ↔ SteadyAll ns ∧ SteadyAll ms := by
  induction ns with
  | nil => simp [SteadyAll]
  | cons n ns ih => exact (and_congr_right fun _ => ih).trans and_assoc.symm

theorem ReadsFrom.mono (h : ReadsFrom w s r C sc nodes sc' out) (hC : C' ⊆ C) :
    ReadsFrom w s r C' sc nodes sc' out := by
  intro A a w' hat hd hr hsteady hrun hw'
  obtain ⟨ha, s', A', hat', hdraws, hstops⟩ := h A a w' hat hd hr hsteady hrun hw'
  exact ⟨ha, s', A', hat', hdraws, fun c hc => hstops c (hC hc)⟩

theorem Reads.mono (h : Reads r C sc nodes sc' out) (hC : C' ⊆ C) : Reads r C' sc nodes sc' out :=
  fun w s => (h w s).mono hC

/-- One description after the other. -/
theorem ReadsFrom.bind {C' : Set (Run β)} (hx : ReadsFrom w s x C sc nodes sc1 a)
    (hf : Reads (f a) C' sc1 nodes' sc2 b)
    (hsticky : ∀ a, StickyRun (f a) := by intro a; first | infer_instance | (cases a <;> infer_instance)) :
    ReadsFrom w s (x >>= f) ({c | ∃ y ∈ C, ∃ g, c = y >>= g} ∪ {c | ∃ g, g a ∈ C' ∧ c = x >>= g}) sc
      (nodes ++ nodes') sc2 b := by
  intro A b' w' hat hd hr hsteady hrun hw'
  simp only [steadyAll_append] at hsteady
  obtain ⟨a', w1, hxw, hw1, hrun⟩ := bind_accepted hrun hw'
  obtain ⟨rfl, s1, A1, hat1, hdraws1, hstops1⟩ := hx A a' w1 hat hd hr (fun h => (hsteady h).1) hxw hw1
  have hext := hdraws1.progress.grows.ext
  obtain ⟨rfl, s', A', hat', hdraws', hstops'⟩ := hf w1 s1 A1 b' w' hat1 hdraws1.progress.drawn
    hdraws1.progress.ready (fun h => (hsteady (hext.strict.1 h)).2) hrun hw'
  refine ⟨rfl, s', A', hat', hdraws1.trans hdraws' hd, ?_⟩
  rintro c (⟨y, hy, g, rfl⟩ | ⟨g, hg, rfl⟩)
  · exact ((hstops1 y hy).mono hdraws'.progress.grows.ext).bind g
  · exact (hstops' _ hg).after hxw

theorem ReadsFrom.stop (h : ReadsFrom w s r C sc nodes sc' out) :
    ReadsFrom w s r (C ∪ {c | ∃ f, c w = (.error f, w)}) sc nodes sc' out := by
  intro A a w' hat hd hr hsteady hrun hw'
  obtain ⟨ha, s', A', hat', hdraws, hstops⟩ := h A a w' hat hd hr hsteady hrun hw'
  refine ⟨ha, s', A', hat', hdraws, ?_⟩
  rintro c (hc | ⟨f, hf⟩)
  · exact hstops c hc
  · exact ⟨f, w, s, A, hf, hat.only, hd, hr, hdraws.progress.grows.ext⟩

theorem reads_here {made : List Ty} (he : Computes e sc nodes made out) :
    Reads (here e) ∅ sc nodes (sc.grow made) out := by
  intro w s A a w' hat hd hr _ hrun hw'
  obtain ⟨s', hs', herr, rfl⟩ := here_accepted hat hrun hw'
  obtain ⟨rfl, hfits, A', hdraws⟩ := he s A a s' hat.toFits hd hr hs' herr
  exact ⟨rfl, s', A', hat.put hfits, hdraws, nofun⟩

theorem PartReads.inScope {p : Option (Run Unit)} [hp : StickyPart p] {C : Set (Run Unit)}
    (h : PartReads p C sc nodes sc')
    (hat : sc.At w s) (hd : Drawn s A) (hr : AllReady s A) (hsteady : A.strict → SteadyAll nodes)
    {u : Unit} (hrun : inScope p w = (.ok u, w')) (hw' : ¬ Rejected w') :
    ∃ s' A', sc'.At w' s' ∧ s'.error = none ∧ Draws nodes s A s' A' ∧ Closes s s' ∧
      ∀ c ∈ C, Stops (Describe.inScope (some c)) w A' := by
  cases p with
  | none =>
    obtain ⟨rfl, rfl, rfl⟩ := h
    cases hrun
    exact ⟨s, A, hat, hat.not_rejected hw', draws_nil hd hr, closes_self s, nofun⟩
  | some r =>
    have := hp.sticky r rfl
    obtain ⟨_, s1, hs1, -, hat1, hrun⟩ := hat.here hrun hw'
    cases hs1
    obtain ⟨u', w2, hrun2, hw2, hrun⟩ := bind_accepted hrun hw'
    obtain ⟨-, s2, A2, hat2, hdraws, hstops⟩ := h _ s.inner A u' w2 hat1 hd.inner hr.inner hsteady hrun2 hw2
    obtain ⟨s', hs', herr, rfl⟩ := here_accepted hat2 hrun hw'
    obtain ⟨hdraws', hcloses⟩ := hdraws.scoped hd hs'
    exact ⟨s', A2, hat2.settles (leads_closeScope.holds _ _ _ hs'), herr, hdraws', hcloses, fun c hc =>
      Stops.here hat.only (openScope_run s) ((hstops c hc).bind _)⟩

theorem Scope.At.find (h : sc.At w s) (n : Name) : lookup n w = (.ok (sc.find n), w) := by
  rw [lookup, Scope.find, ← h.named]
  split <;> rfl

theorem Scope.Valid.find (h : sc.Valid) (hv : sc.find n = some v) : sc.Has v := by
  rw [Scope.find] at hv
  split at hv
  · cases hv
  · obtain ⟨l1, l2, hnames, -⟩ := List.lookup_eq_some_iff.1 hv
    exact h.names (n, v) (by simp [hnames])

end Codesmith.Script
