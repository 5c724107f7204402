import Codesmith.Proofs.Chart.Rename
import Codesmith.Proofs.Gen.Generator

/-!
# Replaying calls on both back ends

A script is a list of calls that follow the call which begins a function. It names a value or a block by
the call that returned it, since the back ends number values differently. Replayed on both back ends, a
script leads to charts that differ in these numbers only, or to a failure in both.
-/

namespace Codesmith.Gen

/-! ## Scripts -/

/-- The exit with the blocks where control may go on renamed. -/
def Exit.relabel (f : BlockId → BlockId) : Exit → Exit
  | jump t => jump (f t)
  | branch c yes no => branch c (f yes) (f no)
  | ret x => ret x

/-- A call to a generator. Values and blocks are named by numbers: `n` stands for what the `n`-th call
that returned a value, or a block, returned. The call that begins the function returned block 0. Negative
numbers stand for themselves and not for values, and so do other numbers `n` for `-2 - n`; as blocks all
numbers that no call returned stand for themselves. -/
inductive Call
  | setPosition (p : Option Position)
  | arg (i : Int)
  | newBlock (name : String)
  | setBlock (b : BlockId)
  /-- Ask for the block that is being built. -/
  | current
  | value (op : Operation)
  | store (t : Ty) (p x : Ref)
  | terminate (e : Exit)
  | phi (join : BlockId) (t : Ty)
  | addIncoming (phi : Ref) (source : BlockId) (x : Ref)

/-- A generator with what its calls returned. -/
structure Session where
  gen : Generator
  refs : Array Ref := #[]
  blocks : Array BlockId
  /-- The blocks to which exits were asked to lead. -/
  targets : List BlockId := []

namespace Session

/-- The value with a name. -/
def ref (s : Session) (n : Ref) : Ref :=
  (fetch? s.refs n).getD (if n < 0 then n else -2 - n)

def block (s : Session) (n : BlockId) : BlockId :=
  (fetch? s.blocks n).getD n

/-- The exit that a call asks for. To return `noRef` is to return no value. -/
def exit (s : Session) (e : Exit) : Exit :=
  match (e.rename s.ref).relabel s.block with
  | .ret (some x) => .ret (if x = noRef then none else some x)
  | e => e

def perform (s : Session) : Call → Except Fault Session
  | .setPosition p => .ok { s with gen := s.gen.setPosition p }
  | .arg i => do
    let (r, g) ← s.gen.arg i
    return { s with gen := g, refs := s.refs.push r }
  | .newBlock name => do
    let (b, g) ← s.gen.newBlock name
    return { s with gen := g, blocks := s.blocks.push b }
  | .setBlock b => do return { s with gen := ← s.gen.setBlock (s.block b) }
  | .current => .ok { s with blocks := s.blocks.push s.gen.current }
  | .value op =>
    let (r, g) := s.gen.value (op.rename s.ref)
    .ok { s with gen := g, refs := s.refs.push r }
  | .store t p x => .ok { s with gen := s.gen.store t (s.ref p) (s.ref x) }
  | .terminate e =>
    let e := s.exit e
    .ok { s with gen := s.gen.terminate e, targets := s.targets ++ e.targets }
  | .phi join t =>
    let (r, g) := s.gen.phi (s.block join) t
    .ok { s with gen := g, refs := s.refs.push r }
  | .addIncoming id source x =>
    .ok { s with gen := s.gen.addIncoming (s.ref id) (s.block source) (s.ref x) }

/-- The rule that a call breaks, if there is one. Earlier calls that broke rules do not count. -/
def verdict (s : Session) : Call → Except Reason Unit
  | .setPosition _ | .newBlock _ | .current => .ok ()
  | .arg i => if 0 ≤ i ∧ i < s.gen.argCount then .ok () else .error (.noArgument i)
  | .setBlock b =>
    if 0 ≤ s.block b ∧ s.block b < s.gen.blockCount then .ok () else .error (.noBlock (s.block b))
  | .value op => do
    s.gen.unended
    s.gen.draft.checkOperation (op.rename s.ref)
  | .store t p x => do
    s.gen.unended
    s.gen.draft.checkStore t (s.ref p) (s.ref x)
  | .terminate e => do
    s.gen.unended
    s.gen.draft.checkExit s.gen.blockCount (s.exit e)
  | .phi join t => do
    Draft.checkBlock s.gen.blockCount (s.block join)
    Draft.scalar t
  | .addIncoming id source _ => do
    Draft.checkBlock s.gen.blockCount (s.block source)
    if s.gen.joins (s.ref id) then .ok () else .error (.notPhi (s.ref id))

end Session

/-- A function given by calls. -/
structure Script where
  name : String
  sig : Signature
  calls : List Call

namespace Script

/-- The session after the call that begins the function. -/
def begun (s : Script) (b : Backend) : Session :=
  let (entry, g) := (Generator.ofBackend b).start s.name s.sig
  { gen := g, blocks := #[entry] }

/-- The session after all calls. -/
def replay (s : Script) (b : Backend) : Except Fault Session :=
  s.calls.foldlM Session.perform (s.begun b)

/-- The program that the calls lead to, or why there is none. -/
def build (s : Script) (b : Backend) : Except Fault (Except Failure Program) := do
  let t ← s.replay b
  return (← t.gen.finalize).2

/-- What the beginning of a function is owed: every argument has to fit a word. -/
def beginning (s : Script) (b : Backend) : Option Failure :=
  (s.sig.params.find? fun t => t.kind = .invalid).map fun t =>
    { backend := b, func := s.name, block := "entry", reason := .valueType t }

/-- No exit leads to the entry. -/
def AvoidsEntry (s : Script) (b : Backend) : Prop :=
  ∀ t, s.replay b = .ok t → (Graph.entry : Int) ∉ t.targets

end Script

theorem Operation.rename_rename (f g : Ref → Ref) (op : Operation) :
    (op.rename f).rename g = op.rename fun x => g (f x) := by
  cases op <;> rfl

/-! ## Edges -/

namespace Chart

variable {x : Ref} {i : Int}

theorem home_update {c : Chart} {y : Ref} {p : Home} (hy : y = x ∨ c.home y ≠ none) :
    Function.update c.home x (some p) y ≠ none := by
  rw [Function.update_apply]
  split
  · exact nofun
  · exact hy.resolve_left ‹_›

theorem succs_ofSig (sig : Signature) (l : Label) : (ofSig sig).succs l = [] := by
  by_cases hl : l = Graph.entry
  · simp only [succs, ofSig, if_pos hl]
  · simp only [succs, ofSig, if_neg hl]

variable (c : Chart)

theorem succs_value (x : Ref) (op : Operation) : (c.value x op).succs = c.succs := by
  funext l
  simp only [succs, value, push_exit]
  rfl

theorem succs_store (t : Ty) (p x : Ref) : (c.store t p x).succs = c.succs := by
  funext l
  simp only [succs, store, push_exit]

theorem succs_phi (x : Ref) (l : Label) (t : Ty) : (c.phi x l t).succs = c.succs := by
  funext k
  by_cases hk : k = l
  · rw [succs, phi, edit_block, if_pos hk, hk]
    rfl
  · rw [succs, phi, edit_block, if_neg hk]
    rfl

theorem edge_terminate {c : Chart} {e : Exit} {l t : Label}
    (h : Graph.Edge (c.terminate e).succs l t) : Graph.Edge c.succs l t ∨ (t : Int) ∈ e.targets := by
  rw [Graph.Edge, succs, terminate, edit_block] at h
  by_cases hl : l = c.current
  · rw [if_pos hl] at h
    exact .inr h
  · rw [if_neg hl] at h
    exact .inl h

theorem Consistent.home_arg {c : Chart} (hc : c.Consistent) (hi : 0 ≤ i ∧ i < c.sig.params.length) :
    c.home i ≠ none := by
  obtain ⟨n, rfl⟩ := Int.eq_ofNat_of_zero_le hi.1
  rw [hc.out _ _ _ _ (hc.args n (Int.ofNat_lt.1 hi.2)) rfl]
  exact nofun

theorem Renames.arg {c c' : Chart} {f : Ref → Ref} (h : c.Renames c' f) (hc : c.Consistent)
    (hc' : c'.Consistent) (hi : 0 ≤ i ∧ i < c.sig.params.length) : f i = i := by
  obtain ⟨n, rfl⟩ := Int.eq_ofNat_of_zero_le hi.1
  have hlt := Int.ofNat_lt.1 hi.2
  have hline := hc'.args n (h.sig ▸ hlt)
  rw [h.block, ChartBlock.rename, List.getElem?_map, hc.args n hlt] at hline
  exact (Act.arg.inj (Option.some.inj hline)).1

/-- What the values of a chart join is there. -/
def Closed (c : Chart) : Prop :=
  ∀ x, ∀ e ∈ c.incoming x, c.home e.ref = none → e.ref < 0

theorem Closed.ne_fresh {c : Chart} (h : c.Closed) (hx : c.home x = none) (h0 : 0 ≤ x) (y : Ref)
    (e : EdgeValue) (he : e ∈ c.incoming y) : e.ref ≠ x := by
  rintro rfl
  exact absurd h0 (Int.not_le.2 (h y e he hx))

theorem Closed.join {c : Chart} (h : c.Closed) (hx : c.home x = none → x < 0) (id : Ref)
    (source : BlockId) : (c.join id source x).Closed := by
  intro y e he
  simp only [Chart.join, Function.update_apply] at he
  split at he
  · rcases List.mem_append.1 he with he | he
    · exact h id e he
    · rw [List.mem_singleton.1 he]
      exact hx
  · exact h y e he

/-- The second chart has the edges of the first and all of its values. -/
structure Keeps (c d : Chart) : Prop where
  sig : d.sig = c.sig
  home : ∀ x, c.home x ≠ none → d.home x ≠ none
  succs : d.succs = c.succs

theorem Keeps.refl (c : Chart) : c.Keeps c :=
  ⟨rfl, fun _ => id, rfl⟩

theorem Keeps.closed {c d : Chart} (h : c.Keeps d) (hc : c.Closed) (hin : d.incoming = c.incoming) :
    d.Closed := by
  intro x e he hnone
  rw [hin] at he
  refine hc x e he ?_
  by_contra hne
  exact h.home _ hne hnone

theorem keeps_value (c : Chart) (x : Ref) (op : Operation) : c.Keeps (c.value x op) :=
  ⟨rfl, fun _ hy => home_update (.inr hy), c.succs_value x op⟩

theorem keeps_store (c : Chart) (t : Ty) (p x : Ref) : c.Keeps (c.store t p x) :=
  ⟨rfl, fun _ => id, c.succs_store t p x⟩

theorem keeps_phi (c : Chart) (x : Ref) (l : Label) (t : Ty) : c.Keeps (c.phi x l t) :=
  ⟨rfl, fun _ hy => home_update (.inr hy), c.succs_phi x l t⟩

end Chart

/-! ## Two sessions -/

namespace Session

variable {x : Ref} {g : Generator} {d : Chart}

theorem ref_begun (g : Generator) (n : Ref) :
    Session.ref { gen := g, blocks := #[(Graph.entry : Int)] } n = if n < 0 then n else -2 - n := by
  cases n <;> rfl

theorem ref_begun_neg (g : Generator) (n : Ref) :
    Session.ref { gen := g, blocks := #[(Graph.entry : Int)] } n < 0 := by
  rw [ref_begun]
  split
  · assumption
  · rename_i h0
    exact Int.sub_neg_of_lt (lt_of_lt_of_le (by decide) (Int.not_lt.1 h0))

/-- The session describes the chart of a function with a signature. -/
structure Tracks (s : Session) (sig : Signature) (c : Chart) : Prop where
  sig : c.sig = sig
  models : s.gen.Models c
  consistent : c.Consistent
  closed : c.Closed
  named : ∀ n, s.ref n < 0 ∨ c.home (s.ref n) ≠ none
  entry : ∀ l, Graph.Edge c.succs l Graph.entry → (Graph.entry : Int) ∈ s.targets

/-- Two sessions describe the same chart up to the numbers of values. -/
structure Matches (s s' : Session) (sig : Signature) (c c' : Chart) (f : Ref → Ref) : Prop where
  left : s.Tracks sig c
  right : s'.Tracks sig c'
  renames : c.Renames c' f
  size : s'.refs.size = s.refs.size
  refs : ∀ n, s'.ref n = f (s.ref n)
  blocks : s'.blocks = s.blocks
  targets : s'.targets = s.targets

/-- Two sessions describe the same chart, or have both failed. -/
def Twins (s s' : Session) (sig : Signature) : Prop :=
  (∃ c c' f, s.Matches s' sig c c' f) ∨ s.gen.Broken ∧ s'.gen.Broken

variable {s s' : Session} {sig : Signature} {c c' : Chart} {f : Ref → Ref}

theorem ref_push (s : Session) (g : Generator) (r n : Ref) :
    { s with gen := g, refs := s.refs.push r }.ref n = if n = s.refs.size then r else s.ref n := by
  simp only [ref, fetch?_push]
  split <;> rfl

theorem Tracks.home (h : s.Tracks sig c) {n : Ref} (hn : c.home (s.ref n) = none) : s.ref n < 0 :=
  (h.named n).resolve_right fun hne => hne hn

section

variable (h : s.Matches s' sig c c' f)
include h

theorem Matches.update (hx : c.home x = none) (h0 : 0 ≤ x) (x' : Ref) (n : Ref) :
    Function.update f x x' (s.ref n) = f (s.ref n) := by
  have hne : s.ref n ≠ x := fun he => absurd h0 (he ▸ Int.not_le.2 (h.left.home (he ▸ hx)))
  exact Function.update_of_ne hne _ _

theorem Matches.block : s'.block = s.block := by
  funext n
  rw [Session.block, h.blocks, Session.block]

theorem Matches.operation (op : Operation) : op.rename s'.ref = (op.rename s.ref).rename f := by
  rw [Operation.rename_rename, funext h.refs]

theorem Matches.ref_eq_noRef (n : Ref) : s'.ref n = noRef ↔ s.ref n = noRef := by
  rw [h.refs]
  by_cases hn : c.home (s.ref n) = none
  · rw [h.renames.absent_neg hn (h.left.home hn)]
  · have hn' : c'.home (f (s.ref n)) ≠ none := by rwa [h.renames.home]
    exact iff_of_false (fun he => hn' (he ▸ h.right.consistent.home_noRef))
      fun he => hn (he ▸ h.left.consistent.home_noRef)

theorem Matches.exit (e : Exit) : s'.exit e = (s.exit e).rename f := by
  cases e with
  | jump t => simp only [Session.exit, Exit.rename, Exit.relabel, h.block]
  | branch c yes no => simp only [Session.exit, Exit.rename, Exit.relabel, h.block, h.refs]
  | ret x =>
    cases x with
    | none => rfl
    | some n =>
      simp only [Session.exit, Exit.rename, Exit.relabel, Option.map_some, h.ref_eq_noRef]
      split
      · rfl
      · rw [h.refs]
        rfl

end

/-! ## Calls -/

section

variable (h : s.Tracks sig c) (hg : g.Models d) (hd : d.Consistent) (hk : c.Keeps d)
include h hg hd hk

theorem Tracks.edit (hd' : d.Closed) : { s with gen := g }.Tracks sig d where
  sig := hk.sig.trans h.sig
  models := hg
  consistent := hd
  closed := hd'
  named n := (h.named n).imp_right (hk.home _)
  entry := hk.succs ▸ h.entry

/-- The session after a call that returns a value. -/
theorem Tracks.push (hin : d.incoming = c.incoming) {r : Ref} (hr : d.home r ≠ none) :
    { s with gen := g, refs := s.refs.push r }.Tracks sig d where
  sig := hk.sig.trans h.sig
  models := hg
  consistent := hd
  closed := hk.closed h.closed hin
  named n := by
    rw [ref_push]
    split
    · exact .inr hr
    · exact (h.named n).imp_right (hk.home _)
  entry := hk.succs ▸ h.entry

end

section

variable (h : s.Matches s' sig c c' f)
include h

/-- Two sessions after a call that returns a value. -/
theorem Matches.push {g' : Generator} {d' : Chart} {x' : Ref} {k : Ref → Ref}
    (ht : { s with gen := g, refs := s.refs.push x }.Tracks sig d)
    (ht' : { s' with gen := g', refs := s'.refs.push x' }.Tracks sig d') (hd : d.Renames d' k) (hx : x' = k x)
    (hk : ∀ n, k (s.ref n) = f (s.ref n)) : { s with gen := g, refs := s.refs.push x }.Matches
      { s' with gen := g', refs := s'.refs.push x' } sig d d' k where
  left := ht
  right := ht'
  renames := hd
  size := by rw [Array.size_push, Array.size_push, h.size]
  refs n := by
    rw [ref_push, ref_push, h.size]
    split
    · exact hx
    · rw [h.refs, hk]
  blocks := h.blocks
  targets := h.targets

theorem Matches.arg (i : Int) :
    ∃ t t', s.perform (.arg i) = .ok t ∧ s'.perform (.arg i) = .ok t' ∧ t.Twins t' sig := by
  have hsig := h.renames.sig
  have hc := h.left.consistent
  have hc' := h.right.consistent
  by_cases hi : 0 ≤ i ∧ i < c.sig.params.length
  · have hi' : 0 ≤ i ∧ i < c'.sig.params.length := hsig ▸ hi
    refine ⟨_, _, by simp only [perform, h.left.models.arg hi]; rfl,
      by simp only [perform, h.right.models.arg hi']; rfl, .inl ⟨c, c', f, ?_⟩⟩
    have hleft := h.left.push h.left.models hc (.refl c) rfl (hc.home_arg hi)
    have hright := h.right.push h.right.models hc' (.refl c') rfl (hc'.home_arg hi')
    exact h.push hleft hright h.renames (h.renames.arg hc hc' hi).symm fun _ => rfl
  · obtain ⟨r, g, hg, hb⟩ := h.left.models.arg_refused hc hi
    obtain ⟨r', g', hg', hb'⟩ := h.right.models.arg_refused hc' (hsig ▸ hi)
    exact ⟨_, _, by simp only [perform, hg]; rfl, by simp only [perform, hg']; rfl, .inr ⟨hb, hb'⟩⟩

theorem Matches.newBlock (name : String) :
    ∃ t t', s.perform (.newBlock name) = .ok t ∧ s'.perform (.newBlock name) = .ok t' ∧ t.Twins t' sig := by
  obtain ⟨g, hg, hm⟩ := h.left.models.newBlock h.left.consistent name
  obtain ⟨g', hg', hm'⟩ := h.right.models.newBlock h.right.consistent name
  refine ⟨_, _, by simp only [perform, hg]; rfl, by simp only [perform, hg']; rfl,
    .inl ⟨c.newBlock, c'.newBlock, f, ?_⟩⟩
  have hleft := h.left.edit hm h.left.consistent.newBlock { Chart.Keeps.refl _ with } h.left.closed
  have hright := h.right.edit hm' h.right.consistent.newBlock { Chart.Keeps.refl _ with } h.right.closed
  exact ⟨{ hleft with }, { hright with }, h.renames.newBlock, h.size, h.refs,
    by rw [h.blocks, h.renames.size], h.targets⟩

theorem Matches.setBlock (b : BlockId) :
    ∃ t t', s.perform (.setBlock b) = .ok t ∧ s'.perform (.setBlock b) = .ok t' ∧ t.Twins t' sig := by
  have hsize := h.renames.size
  simp only [perform, h.block]
  by_cases hb : 0 ≤ s.block b ∧ s.block b < c.size
  · have hlt : (s.block b).toNat < c.size := (Int.toNat_lt hb.1).2 hb.2
    obtain ⟨g, hg, hm⟩ := h.left.models.setBlock hb
    obtain ⟨g', hg', hm'⟩ := h.right.models.setBlock (hsize.symm ▸ hb)
    refine ⟨{ s with gen := g }, { s' with gen := g' }, by simp only [hg]; rfl,
      by simp only [hg']; rfl, .inl ⟨c.setBlock (s.block b).toNat, c'.setBlock (s.block b).toNat, f,
      ?_⟩⟩
    exact ⟨h.left.edit hm (h.left.consistent.setBlock hlt) { Chart.Keeps.refl _ with } h.left.closed,
      h.right.edit hm' (h.right.consistent.setBlock (hsize.symm ▸ hlt))
        { Chart.Keeps.refl _ with } h.right.closed,
      h.renames.setBlock _, h.size, h.refs, h.blocks, h.targets⟩
  · obtain ⟨g, hg, hb'⟩ := h.left.models.setBlock_refused h.left.consistent hb
    obtain ⟨g', hg', hb''⟩ := h.right.models.setBlock_refused h.right.consistent (hsize.symm ▸ hb)
    exact ⟨{ s with gen := g }, { s' with gen := g' }, by simp only [hg]; rfl,
      by simp only [hg']; rfl, .inr ⟨hb', hb''⟩⟩

theorem Matches.current :
    ∃ t t', s.perform .current = .ok t ∧ s'.perform .current = .ok t' ∧ t.Twins t' sig := by
  refine ⟨_, _, rfl, rfl, .inl ⟨c, c', f, { h.left with }, { h.right with }, h.renames, h.size,
    h.refs, ?_, h.targets⟩⟩
  rw [h.blocks, h.left.models.current, h.right.models.current, h.renames.current]

theorem Matches.value (op : Operation) :
    ∃ t t', s.perform (.value op) = .ok t ∧ s'.perform (.value op) = .ok t' ∧ t.Twins t' sig := by
  have hc := h.left.consistent
  have hc' := h.right.consistent
  have hexit : (c'.block c'.current).exit = none ↔ (c.block c.current).exit = none := by
    rw [h.renames.current, h.renames.block]
    exact Option.map_eq_none_iff
  have hfits : (op.rename s'.ref).Fits c'.ty ↔ (op.rename s.ref).Fits c.ty := by
    rw [h.operation]
    exact Operation.fits_rename h.renames.ty _
  by_cases hok : c.Unended ∧ (op.rename s.ref).Fits c.ty
  · obtain ⟨hlive, hop⟩ := hok
    obtain ⟨x, g, hg, hx, h0, hm⟩ := h.left.models.value hc hlive hop
    obtain ⟨x', g', hg', hx', h0', hm'⟩ := h.right.models.value hc' (hexit.2 hlive) (hfits.2 hop)
    have hleft := h.left.push hm (hc.value hx h0 hop) (c.keeps_value x _) rfl (Chart.home_update (.inl rfl))
    have hright := h.right.push hm' (hc'.value hx' h0' (hfits.2 hop)) (c'.keeps_value x' _) rfl
      (Chart.home_update (.inl rfl))
    refine ⟨_, _, by simp only [perform, hg], by simp only [perform, hg'],
      .inl ⟨_, _, _, h.push hleft hright ?_ (Function.update_self x x' f).symm (h.update hx h0 x')⟩⟩
    rw [h.operation]
    exact h.renames.value hc hx hc' hx' h0' (h.left.closed.ne_fresh hx h0) hop
  · exact ⟨_, _, rfl, rfl, .inr ⟨h.left.models.value_refused hc hok,
      h.right.models.value_refused hc' fun hno => hok ⟨hexit.1 hno.1, hfits.1 hno.2⟩⟩⟩

theorem Matches.store (t : Ty) (p x : Ref) :
    ∃ u u', s.perform (.store t p x) = .ok u ∧ s'.perform (.store t p x) = .ok u' ∧ u.Twins u' sig := by
  have hc := h.left.consistent
  have hc' := h.right.consistent
  have hiff : ((c'.block c'.current).exit = none ∧ (c'.ty (s'.ref p)).isPtr = true ∧
      c'.ty (s'.ref x) = t ∧ t.kind ≠ .invalid) ↔ ((c.block c.current).exit = none ∧
      (c.ty (s.ref p)).isPtr = true ∧ c.ty (s.ref x) = t ∧ t.kind ≠ .invalid) := by
    rw [h.refs, h.refs, h.renames.ty, h.renames.ty, h.renames.current, h.renames.block]
    exact and_congr_left' Option.map_eq_none_iff
  refine ⟨_, _, rfl, rfl, ?_⟩
  by_cases hok : c.Unended ∧ (c.ty (s.ref p)).isPtr = true ∧ c.ty (s.ref x) = t ∧ t.kind ≠ .invalid
  · obtain ⟨hlive, hp, hx, ht⟩ := hok
    obtain ⟨hlive', hp', hx', -⟩ := hiff.2 ⟨hlive, hp, hx, ht⟩
    have hleft := h.left.edit (h.left.models.store hc hlive hp hx ht) (hc.store hp hx ht)
      (c.keeps_store _ _ _) h.left.closed
    have hright := h.right.edit (h.right.models.store hc' hlive' hp' hx' ht) (hc'.store hp' hx' ht)
      (c'.keeps_store _ _ _) h.right.closed
    refine .inl ⟨_, _, f, hleft, hright, ?_, h.size, h.refs, h.blocks, h.targets⟩
    rw [h.refs, h.refs]
    exact h.renames.store t _ _
  · exact .inr ⟨h.left.models.store_refused hc hok,
      h.right.models.store_refused hc' fun hno => hok (hiff.1 hno)⟩

end

theorem Tracks.terminate (h : s.Tracks sig c) {e : Exit} (hl : c.Unended)
    (he : e.Fits c.sig.result c.size c.ty) :
    { s with gen := s.gen.terminate e, targets := s.targets ++ e.targets }.Tracks sig
      (c.terminate e) where
  sig := h.sig
  models := h.models.terminate h.consistent hl he
  consistent := h.consistent.terminate he
  closed := h.closed
  named := h.named
  entry l hedge := by
    rcases Chart.edge_terminate hedge with hedge | hmem
    · exact List.mem_append_left _ (h.entry l hedge)
    · exact List.mem_append_right _ hmem

section

variable (h : s.Matches s' sig c c' f)
include h

theorem Matches.terminate (e : Exit) :
    ∃ t t', s.perform (.terminate e) = .ok t ∧ s'.perform (.terminate e) = .ok t' ∧ t.Twins t' sig := by
  simp only [perform, h.exit]
  generalize s.exit e = e
  have hiff : ((c'.block c'.current).exit = none ∧ (e.rename f).Fits c'.sig.result c'.size c'.ty) ↔
      ((c.block c.current).exit = none ∧ e.Fits c.sig.result c.size c.ty) := by
    rw [h.renames.current, h.renames.block, h.renames.sig, h.renames.size, Exit.fits_rename h.renames.ty]
    exact and_congr_left' Option.map_eq_none_iff
  refine ⟨_, _, rfl, rfl, ?_⟩
  by_cases hok : c.Unended ∧ e.Fits c.sig.result c.size c.ty
  · obtain ⟨hlive', he'⟩ := hiff.2 hok
    exact .inl ⟨_, _, f, h.left.terminate hok.1 hok.2, h.right.terminate hlive' he',
      h.renames.terminate e, h.size, h.refs, h.blocks, by rw [h.targets, Exit.targets_rename]⟩
  · exact .inr ⟨h.left.models.terminate_refused h.left.consistent hok,
      h.right.models.terminate_refused h.right.consistent fun hno => hok (hiff.1 hno)⟩

theorem Matches.phi (join : BlockId) (ty : Ty) :
    ∃ t t', s.perform (.phi join ty) = .ok t ∧ s'.perform (.phi join ty) = .ok t' ∧ t.Twins t' sig := by
  have hc := h.left.consistent
  have hc' := h.right.consistent
  have hsize := h.renames.size
  simp only [perform, h.block]
  by_cases hok : (0 ≤ s.block join ∧ s.block join < c.size) ∧ ty.kind ≠ .invalid
  · obtain ⟨hj, ht⟩ := hok
    have hlt : (s.block join).toNat < c.size := (Int.toNat_lt hj.1).2 hj.2
    obtain ⟨x, g, hg, hx, h0, hm⟩ := h.left.models.phi hc hj ht
    obtain ⟨x', g', hg', hx', h0', hm'⟩ := h.right.models.phi hc' (hsize.symm ▸ hj) ht
    have hleft := h.left.push hm (hc.phi_call hx h0 hlt ht) (c.keeps_phi x _ ty) rfl
      (Chart.home_update (.inl rfl))
    have hright := h.right.push hm' (hc'.phi_call hx' h0' (hsize.symm ▸ hlt) ht)
      (c'.keeps_phi x' _ ty) rfl (Chart.home_update (.inl rfl))
    simp only [hg, hg']
    exact ⟨_, _, rfl, rfl, .inl ⟨_, _, _, h.push hleft hright
      (h.renames.phi hc hx hc' hx' h0' (h.left.closed.ne_fresh hx h0) _ ty) (Function.update_self x x' f).symm
      (h.update hx h0 x')⟩⟩
  · exact ⟨_, _, rfl, rfl, .inr ⟨h.left.models.phi_refused hc hok,
      h.right.models.phi_refused hc' (hsize.symm ▸ hok)⟩⟩

theorem Matches.addIncoming (id : Ref) (source : BlockId) (x : Ref) :
    ∃ t t', s.perform (.addIncoming id source x) = .ok t ∧
      s'.perform (.addIncoming id source x) = .ok t' ∧ t.Twins t' sig := by
  have hc := h.left.consistent
  have hc' := h.right.consistent
  have hsize := h.renames.size
  have hhome := h.renames.home (s.ref id)
  simp only [perform, h.block, h.refs]
  refine ⟨_, _, rfl, rfl, ?_⟩
  by_cases hok : (0 ≤ s.block source ∧ s.block source < c.size) ∧ ∃ l, c.home (s.ref id) = some ⟨l, none⟩
  · obtain ⟨hs, l, hid⟩ := hok
    have hid' := hhome.trans hid
    have hx' : c'.home (f (s.ref x)) = none → f (s.ref x) < 0 := fun hnone => by
      rw [h.renames.home] at hnone
      rw [h.renames.absent_neg hnone (h.left.home hnone)]
      exact h.left.home hnone
    have hleft := h.left.edit (h.left.models.addIncoming hc hid hs (s.ref x))
      (hc.join hid hs) { Chart.Keeps.refl _ with } (h.left.closed.join (fun hnone => h.left.home hnone) _ _)
    have hright := h.right.edit (h.right.models.addIncoming hc' hid' (hsize.symm ▸ hs) (f (s.ref x)))
      (hc'.join hid' (hsize.symm ▸ hs)) { Chart.Keeps.refl _ with } (h.right.closed.join hx' _ _)
    exact .inl ⟨_, _, f, hleft, hright, h.renames.join (by rw [hid]; exact nofun) _ _, h.size,
      h.refs, h.blocks, h.targets⟩
  · refine .inr ⟨h.left.models.addIncoming_refused hc hok,
      h.right.models.addIncoming_refused hc' fun hno => hok ?_⟩
    rwa [hhome, hsize] at hno

end

/-- A call returns, and the generator takes note of what it is owed. -/
theorem notes_perform {b : Backend} {name func : String} (h : s.gen.InUse b name func) (call : Call) :
    ∃ t, s.perform call = .ok t ∧ s.gen.Notes (s.gen.owed (s.verdict call)) t.gen := by
  cases call with
  | setPosition p => exact ⟨_, rfl, s.gen.notes_setPosition p⟩
  | arg i =>
    obtain ⟨r, g, hg, hnotes⟩ := h.arg i
    exact ⟨{ s with gen := g, refs := s.refs.push r }, by simp only [perform, hg]; rfl, hnotes⟩
  | newBlock label =>
    obtain ⟨l, g, hg, hnotes⟩ := h.newBlock label
    exact ⟨{ s with gen := g, blocks := s.blocks.push l }, by simp only [perform, hg]; rfl, hnotes⟩
  | setBlock l =>
    obtain ⟨g, hg, hnotes⟩ := h.setBlock (s.block l)
    exact ⟨{ s with gen := g }, by simp only [perform, hg]; rfl, hnotes⟩
  | current => exact ⟨_, rfl, Generator.notes_self _⟩
  | value op => exact ⟨_, rfl, h.value _⟩
  | store t p x => exact ⟨_, rfl, h.store t _ _⟩
  | terminate e => exact ⟨_, rfl, h.terminate _⟩
  | phi join t => exact ⟨_, rfl, h.phi _ t⟩
  | addIncoming id source x => exact ⟨_, rfl, h.addIncoming _ _ _⟩

theorem broken_perform (h : s.gen.Broken) (call : Call) : ∃ t, s.perform call = .ok t ∧ t.gen.Broken := by
  obtain ⟨b, name, func, huse, he⟩ := h
  obtain ⟨t, ht, hn⟩ := notes_perform huse call
  exact ⟨t, ht, huse.broken hn (.inr he)⟩

/-- A call keeps two sessions alike. -/
theorem Twins.perform (h : s.Twins s' sig) (call : Call) :
    ∃ t t', s.perform call = .ok t ∧ s'.perform call = .ok t' ∧ t.Twins t' sig := by
  rcases h with ⟨c, c', f, h⟩ | ⟨hb, hb'⟩
  · cases call with
    | setPosition p =>
      exact ⟨_, _, rfl, rfl, .inl ⟨c, c', f, { h.left with models := h.left.models.setPosition p },
        { h.right with models := h.right.models.setPosition p }, h.renames, h.size, h.refs,
        h.blocks, h.targets⟩⟩
    | arg i => exact h.arg i
    | newBlock name => exact h.newBlock name
    | setBlock b => exact h.setBlock b
    | current => exact h.current
    | value op => exact h.value op
    | store t p x => exact h.store t p x
    | terminate e => exact h.terminate e
    | phi join t => exact h.phi join t
    | addIncoming id source x => exact h.addIncoming id source x
  · obtain ⟨t, ht, hbt⟩ := broken_perform hb call
    obtain ⟨t', ht', hbt'⟩ := broken_perform hb' call
    exact ⟨t, t', ht, ht', .inr ⟨hbt, hbt'⟩⟩

/-- Calls keep two sessions alike. -/
theorem Twins.perform_all (h : s.Twins s' sig) (calls : List Call) :
    ∃ t t', calls.foldlM Session.perform s = .ok t ∧ calls.foldlM Session.perform s' = .ok t' ∧
      t.Twins t' sig := by
  induction calls generalizing s s' with
  | nil => exact ⟨s, s', rfl, rfl, h⟩
  | cons call calls ih =>
    obtain ⟨t, t', ht, ht', htwins⟩ := h.perform call
    obtain ⟨u, u', hu, hu', htwins⟩ := ih htwins
    refine ⟨u, u', ?_, ?_, htwins⟩
    · rw [List.foldlM_cons, ht]
      exact hu
    · rw [List.foldlM_cons, ht']
      exact hu'

end Session

namespace Script

/-- What the beginning is owed is remembered. -/
theorem notes_begun (s : Script) (b : Backend) : (s.begun b).gen.InUse b s.name s.name ∧
    (s.begun b).gen.draft.error = s.beginning b ∧ (s.begun b).gen.buildError = none := by
  cases b with
  | machine =>
    have hgen : (s.begun .machine).gen =
        .machine ((MachineDraft.begun none s.name s.sig []).defineArgs 0 s.sig.params) := rfl
    obtain ⟨types, hdraft⟩ := MachineDraft.draft_defineArgs s.sig.params (MachineDraft.begun none s.name s.sig []) 0
    rw [hgen]
    refine ⟨⟨?_, ?_, ?_, ?_, rfl⟩, ?_, rfl⟩ <;> simp only [Generator.backend, Generator.draft, hdraft] <;> rfl
  | ssa =>
    have hcreate := Ssa.Func.create_eq s.name s.sig
    obtain ⟨types, hdraft⟩ := SsaDraft.draft_foldl_setType ((Ssa.Func.create s.name s.sig).args.zip s.sig.params)
      (SsaDraft.checkArgs { backend := .ssa, name := s.name, sig := s.sig, begun := true } s.sig.params)
    have hdraft' : (s.begun .ssa).gen.draft = _ := hdraft
    rw [SsaDraft.checkArgs_eq] at hdraft'
    refine ⟨⟨?_, ?_, ?_, ?_, rfl, Ssa.Func.create s.name s.sig, rfl, ?_, ?_⟩, ?_, ?_⟩
    · rw [Generator.backend, hdraft']
    · rw [hdraft']
    · rw [hdraft']
    · rw [hdraft']
    · rw [hcreate]
      rfl
    · rw [hcreate]
      exact Nat.zero_lt_one
    · rw [hdraft']
      rfl
    · show (Ssa.Func.create s.name s.sig).error = none
      rw [hcreate]
      rfl

theorem twins_begun (s : Script) : (s.begun .machine).Twins (s.begun .ssa) s.sig := by
  by_cases hsig : ∀ t ∈ s.sig.params, t.kind ≠ .invalid
  · obtain ⟨g, (hg : (Generator.ofBackend .machine).start s.name s.sig = _), hm⟩ :=
      Generator.start_models .machine none s.name hsig
    obtain ⟨g', (hg' : (Generator.ofBackend .ssa).start s.name s.sig = _), hm'⟩ :=
      Generator.start_models .ssa none s.name hsig
    have htracks : ∀ {g : Generator}, g.Models (.ofSig s.sig) →
        Session.Tracks { gen := g, blocks := #[(Graph.entry : Int)] } s.sig (.ofSig s.sig) := fun hm =>
      ⟨rfl, hm, Chart.consistent_ofSig s.sig, nofun, fun n => .inl (Session.ref_begun_neg _ n), fun l hedge => by
        rw [Graph.Edge, Chart.succs_ofSig] at hedge
        exact absurd hedge List.not_mem_nil⟩
    simp only [begun, hg, hg']
    have hren := Chart.renames_ofSig s.sig
    refine .inl ⟨_, _, _, htracks hm, htracks hm', hren, rfl, fun n => ?_, rfl, rfl⟩
    have hneg := Session.ref_begun_neg g n
    have hnone : (Chart.ofSig s.sig).home (Session.ref { gen := g, blocks := #[(Graph.entry : Int)] } n) = none := by
      by_contra hne
      exact absurd ((Chart.consistent_ofSig s.sig).nonneg _ hne) (Int.not_le.2 hneg)
    rw [hren.absent_neg hnone hneg, Session.ref_begun, Session.ref_begun]
  · have hbroken : ∀ b, (s.begun b).gen.Broken := fun b => by
      obtain ⟨huse, herr, -⟩ := s.notes_begun b
      refine ⟨b, _, _, huse, .inl ?_⟩
      rw [herr, beginning, Ne, Option.map_eq_none_iff, List.find?_eq_none]
      simpa using hsig
    exact .inr ⟨hbroken .machine, hbroken .ssa⟩

/-- A script leads to the same chart, or to a failure, in both back ends. -/
theorem exists_replay (s : Script) :
    ∃ t t', s.replay .machine = .ok t ∧ s.replay .ssa = .ok t' ∧ t.Twins t' s.sig :=
  s.twins_begun.perform_all s.calls

end Script

end Codesmith.Gen
