import Codesmith.Gen.SsaDraft
import Codesmith.Proofs.Ssa.Model

/-!
# Charts of drafts in single assignment form

`SsaDraft.Models` says that a draft describes a chart. Every call that passes its check changes the draft
and the chart alike.
-/

namespace Codesmith.Gen.SsaDraft

variable {α : Type} {check : Except Reason Unit} {f : Ssa.Func} {op : Operation} {t : Ty} {p x id : Ref}
  {e : Exit} {join source b : BlockId} {i : Int} {ts : List Ty} {sig : Signature}

/-- The draft describes the chart and can be continued. -/
structure Models (g : SsaDraft) (c : Chart) : Prop where
  draft : g.draft.Agrees .ssa c.sig c.ty
  current : g.current = c.current
  func : ∃ f, g.func = some f ∧ f.Models c

variable {g : SsaDraft} {c : Chart}

theorem guarded_ok (hf : g.func = some f) (h : check = .ok ()) (otherwise : α) (act : Ssa.Func → α × SsaDraft) :
    g.guarded check otherwise act = act f := by
  simp only [guarded, h, hf]

theorem Models.blockCount (h : g.Models c) : g.blockCount = c.size := by
  obtain ⟨f, hf, hm⟩ := h.func
  rw [SsaDraft.blockCount, hf]
  exact hm.size

theorem Models.live_iff (h : g.Models c) (hc : c.Consistent) :
    g.live = .ok () ↔ (c.block c.current).exit = none := by
  obtain ⟨f, hf, hm⟩ := h.func
  obtain ⟨b, hb, hs⟩ := hm.exists_block hc.current
  have ht : g.terminated = .ok b.term.isSome := by
    rw [terminated, begunFunc, hf, h.current]
    simp [bind, Except.bind, Ssa.Func.terminated, fetch_natCast hb, Except.map]
  rw [live, seq_ok_iff, and_iff_right h.draft.ready, ht, ← hs.term_eq_none_iff]
  cases b.term <;> simp

/-! ## Calls that pass -/

section

variable (h : g.Models c) (hc : c.Consistent) (hl : c.Unended)
include h hc hl

theorem Models.add_eq (hm : f.Models c) (x : Ssa.Expr) (t : Ty) : g.add f x t = ((f.entries.size : Int),
      { g with
        func := some (f.added c.current x t g.draft.position)
        draft := if t.isVoid then g.draft else g.draft.setType f.entries.size t }) := by
  obtain ⟨b, hb, hs⟩ := hm.exists_block hc.current
  rw [add, h.current, Ssa.Func.add_eq hb (.inl (hs.term_eq_none_iff.2 hl))]
  have hno : ((f.entries.size : Nat) : Int) ≠ noRef := fun he =>
    absurd (he ▸ Int.natCast_nonneg f.entries.size) (by decide)
  simp only [if_neg hno, Int.toNat_natCast]
  split <;> rfl

theorem Models.value (hop : op.Fits c.ty) :
    ∃ x g', g.value op = (x, g') ∧ c.home x = none ∧ 0 ≤ x ∧ g'.Models (c.value x op) := by
  obtain ⟨f, hf, hm⟩ := h.func
  have hcheck : (do g.live; g.draft.checkOperation op) = .ok () :=
    seq_ok_iff.2 ⟨(h.live_iff hc).2 hl, h.draft.checkOperation.2 hop⟩
  rw [SsaDraft.value, guarded_ok hf hcheck, h.add_eq hc hl hm]
  refine ⟨_, _, rfl, hm.fresh, Int.natCast_nonneg _, ?_, h.current, _, rfl, hm.value_added hc hop _⟩
  dsimp only
  split
  · -- The number of a value without a type had none before.
    rename_i ht
    have hty : Function.update c.ty f.entries.size op.ty = c.ty := by
      rw [Ty.isVoid_iff.1 ht, ← hc.ty_eq_void hm.fresh, Function.update_eq_self]
    exact ⟨h.draft.backend, h.draft.error, h.draft.begun, h.draft.finalized, h.draft.sig,
      fun x => (h.draft.types x).trans (congrFun hty x).symm⟩
  · exact h.draft.setType _ _

theorem Models.store (hp : (c.ty p).isPtr = true) (hx : c.ty x = t) (ht : t.kind ≠ .invalid) :
    (g.store t p x).Models (c.store t p x) := by
  obtain ⟨f, hf, hm⟩ := h.func
  have hcheck : (do g.live; g.draft.checkStore t p x) = .ok () :=
    seq_ok_iff.2 ⟨(h.live_iff hc).2 hl, h.draft.checkStore.2 ⟨hp, hx, ht⟩⟩
  rw [SsaDraft.store, guarded_ok hf hcheck, h.add_eq hc hl hm]
  exact ⟨h.draft, h.current, _, rfl, hm.store_added hc hp hx ht _⟩

theorem Models.terminate (he : e.Fits c.sig.result c.size c.ty) : (g.terminate e).Models (c.terminate e) := by
  obtain ⟨f, hf, hm⟩ := h.func
  have hcheck : (do g.live; g.draft.checkExit g.blockCount e) = .ok () :=
    seq_ok_iff.2 ⟨(h.live_iff hc).2 hl, h.blockCount ▸ h.draft.checkExit.2 he⟩
  rw [SsaDraft.terminate, guarded_ok hf hcheck, h.add_eq hc hl hm]
  exact ⟨h.draft, h.current, _, rfl, hm.exit_added hc e _⟩

end

section

variable (h : g.Models c) (hc : c.Consistent)
include h hc

theorem Models.phi (hj : 0 ≤ join ∧ join < c.size) (ht : t.kind ≠ .invalid) :
    ∃ x g', g.phi join t = (x, g') ∧ c.home x = none ∧ 0 ≤ x ∧ g'.Models (c.phi x join.toNat t) := by
  obtain ⟨f, hf, hm⟩ := h.func
  have hcheck : (do g.draft.ready; Draft.checkBlock g.blockCount join; Draft.scalar t) = .ok () :=
    seq_ok_iff.2 ⟨h.draft.ready, seq_ok_iff.2
      ⟨Draft.checkBlock_ok_iff.2 (h.blockCount ▸ hj), Draft.scalar_ok_iff.2 ht⟩⟩
  obtain ⟨l, rfl⟩ := Int.eq_ofNat_of_zero_le hj.1
  obtain ⟨b, hb, -⟩ := hm.exists_block (Int.ofNat_lt.1 hj.2)
  rw [SsaDraft.phi, guarded_ok hf hcheck, Ssa.Func.add_eq hb (.inr rfl)]
  exact ⟨_, _, rfl, hm.fresh, Int.natCast_nonneg _, h.draft.setType _ t, h.current, _, rfl,
    hm.phi_added hc l t _⟩

theorem Models.addIncoming {l : Label} (hid : c.home id = some ⟨l, none⟩) (hs : 0 ≤ source ∧ source < c.size)
    (x : Ref) : (g.addIncoming id source x).Models (c.join id source x) := by
  obtain ⟨f, hf, hm⟩ := h.func
  have hcheck : (do g.draft.ready; Draft.checkBlock g.blockCount source) = .ok () :=
    seq_ok_iff.2 ⟨h.draft.ready, Draft.checkBlock_ok_iff.2 (h.blockCount ▸ hs)⟩
  rw [SsaDraft.addIncoming, guarded_ok hf hcheck]
  exact ⟨h.draft, h.current, _, rfl, hm.addIncoming hc hid source x⟩

theorem Models.newBlock (name : String) :
    ∃ g', g.newBlock name = .ok ((c.size : Int), g') ∧ g'.Models c.newBlock := by
  obtain ⟨f, hf, hm⟩ := h.func
  obtain ⟨hsize, hnew⟩ := hm.newBlock hc name
  rw [SsaDraft.newBlock, begunFunc, hf]
  refine ⟨{ g with func := some (f.newBlock name).2 }, ?_, h.draft, h.current, _, rfl, hnew⟩
  rw [← hsize]
  rfl

end

theorem Models.setBlock (h : g.Models c) (hb : 0 ≤ b ∧ b < c.size) :
    ∃ g', g.setBlock b = .ok g' ∧ g'.Models (c.setBlock b.toNat) := by
  obtain ⟨f, hf, hm⟩ := h.func
  refine ⟨{ g with current := b.toNat }, ?_, h.draft, rfl, f, hf, { hm with }⟩
  rw [SsaDraft.setBlock, begunFunc, hf]
  simp [bind, Except.bind, pure, Except.pure, hm.size, hb]

theorem Models.arg (h : g.Models c) (hi : 0 ≤ i ∧ i < c.sig.params.length) : g.arg i = .ok (i, g) := by
  obtain ⟨f, hf, hm⟩ := h.func
  obtain ⟨n, rfl⟩ := Int.eq_ofNat_of_zero_le hi.1
  have hlt : n < c.sig.params.length := Int.ofNat_lt.1 hi.2
  rw [SsaDraft.arg, begunFunc, hf]
  simp [bind, Except.bind, pure, Except.pure, hm.args, hlt]

/-! ## The beginning -/

theorem draft_foldl_setType (ps : List (Nat × Ty)) (d : Draft) :
    ∃ types, ps.foldl (fun d p => d.setType p.1 p.2) d = { d with types } := by
  induction ps generalizing d with
  | nil => exact ⟨d.types, rfl⟩
  | cons p ps ih => exact ih (d.setType p.1 p.2)

/-- What a function is owed at its beginning is remembered. -/
theorem checkArgs_eq (ts : List Ty) (d : Draft) : checkArgs d ts = { d with
    error := d.error.or ((ts.find? fun t => t.kind = .invalid).map fun t =>
      { backend := d.backend, func := d.name, block := "entry", position := d.position,
        reason := .valueType t }) } := by
  induction ts with
  | nil => simp [checkArgs]
  | cons t ts ih =>
    rw [checkArgs]
    by_cases ht : t.kind = .invalid
    · rw [Draft.scalar, if_pos ht, List.find?_cons_of_pos (by simpa using ht)]
      rfl
    · rw [Draft.scalar, if_neg ht, List.find?_cons_of_neg (by simpa using ht)]
      exact ih

/-- The types of the arguments are written one after the other. -/
theorem typeOf_foldl_setType (ts : List Ty) (d : Draft) (k n : Nat) :
    (((List.range' k ts.length).zip ts).foldl (fun d p => d.setType p.1 p.2) d).typeOf n =
      if n < k then d.typeOf n else (ts[n - k]?).getD (d.typeOf n) := by
  induction ts generalizing d k with
  | nil => simp
  | cons t ts ih =>
    have hn := ih (d.setType k t) (k + 1)
    simp only [Draft.typeOf_setType, Int.natCast_inj] at hn
    refine hn.trans ?_
    by_cases h1 : n < k
    · rw [if_pos (by omega), if_pos h1, if_neg (by omega)]
    by_cases h2 : n = k
    · subst h2
      simp
    · rw [if_neg (by omega), if_neg h1, if_neg (by omega)]
      obtain ⟨m, rfl⟩ : ∃ m, n = k + 1 + m := ⟨n - (k + 1), by omega⟩
      rw [Nat.add_sub_cancel_left, show k + 1 + m - k = m + 1 by omega, List.getElem?_cons_succ]

theorem start_models (p : Option Position) (name : String) (hsig : ∀ t ∈ sig.params, t.kind ≠ .invalid) :
    ∃ g', ({ draft := { backend := .ssa, position := p } } : SsaDraft).start name sig =
      ((Graph.entry : Int), g') ∧ g'.Models (.ofSig sig) := by
  refine ⟨_, rfl, ?_, rfl, _, rfl, Ssa.Func.create_eq name sig ▸ Ssa.Func.models_begun name sig⟩
  have hfind : (sig.params.find? fun t => t.kind = .invalid) = none := by
    rw [List.find?_eq_none]
    exact fun t ht => by simpa using hsig t ht
  rw [checkArgs_eq, hfind, Ssa.Func.create_eq]
  simp only [Ssa.Func.begun, List.range_eq_range', Option.map_none, Option.or_none]
  obtain ⟨types, hdraft⟩ := draft_foldl_setType ((List.range' 0 sig.params.length).zip sig.params)
    { backend := .ssa, name, sig, position := p, begun := true }
  refine ⟨by rw [hdraft], by rw [hdraft], by rw [hdraft], by rw [hdraft], by rw [hdraft]; rfl, fun x => ?_⟩
  cases x with
  | negSucc k => rfl
  | ofNat k =>
    refine (typeOf_foldl_setType sig.params _ 0 k).trans ?_
    simp [Chart.ofSig, Draft.typeOf, fetch?]

end Codesmith.Gen.SsaDraft
