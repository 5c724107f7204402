import Codesmith.Proofs.Chart.Typed
import Codesmith.Proofs.Gen.Registers

/-!
# Generators of typed charts

Calls with pointed operations and with exits that avoid the entry lead to typed charts without an edge
to the entry, or to a failure.
-/

namespace Codesmith.Gen

variable {g : SsaDraft} {c : Chart} {args : Array Word} {p : Program}

/-! ## Edits of typed charts -/

namespace Chart

variable {c : Chart}
variable {d : Chart} {x : Ref}

theorem typed_ofSig (sig : Signature) : (ofSig sig).Typed where
  params n t ht := by
    have ht' : sig.params.toArray[n]? = some t := by rwa [List.getElem?_toArray]
    simp only [ofSig, fetch?_natCast, ht', Option.getD_some]
  lines l out k hk := by
    obtain ⟨i, hi⟩ := List.mem_iff_getElem?.1 hk
    obtain ⟨-, -, ha⟩ := ofSig_getElem?.1 hi
    cases ha

section

variable (h : c.Typed) (hc : c.Consistent) (hx : c.home x = none)
include h hc hx

/-- A chart is typed as one with the same lines and more values is. -/
theorem Typed.define {t : Ty} (hsig : d.sig = c.sig) (hty : d.ty = Function.update c.ty x t)
    (hlines : ∀ l out k, Act.compute out k ∈ (d.block l).code → Act.compute out k ∈ (c.block l).code ∨
      ∃ op : Operation, op.Fits c.ty ∧ op.Pointed ∧ op.compute = k ∧ op.ty = d.ty out) : d.Typed := by
  have hold : ∀ y, c.home y ≠ none → d.ty y = c.ty y := fun y hy => by
    have hne : y ≠ x := fun he => hy (he ▸ hx)
    rw [hty, Function.update_of_ne hne]
  have hmono : ∀ y, c.ty y ≠ .void → d.ty y = c.ty y := fun y hy => hold y (hc.typed y hy)
  constructor
  · intro n u hn
    rw [hsig] at hn
    have hlt : n < c.sig.params.length := (List.getElem?_eq_some_iff.1 hn).1
    rw [hold n (hc.home_arg ⟨Int.natCast_nonneg n, Int.ofNat_lt.2 hlt⟩)]
    exact h.params n u hn
  · intro l out k hk
    rcases hlines l out k hk with hk | ⟨op, hop, hp, hk, hout⟩
    · obtain ⟨i, hi⟩ := List.mem_iff_getElem?.1 hk
      obtain ⟨op, hop, hp, hk, hout⟩ := h.lines l out k hk
      refine ⟨op, hop.mono hmono, hp, hk, hout.trans (hold out ?_).symm⟩
      rw [hc.out l i _ out hi rfl]
      exact nofun
    · exact ⟨op, hop.mono hmono, hp, hk, hout⟩

theorem Typed.value {op : Operation} (hop : op.Fits c.ty) (hp : op.Pointed) : (c.value x op).Typed := by
  refine h.define hc hx rfl rfl fun l out k hk => ?_
  rcases mem_push_code hk with hk | hk
  · exact .inl hk
  · obtain ⟨rfl, rfl⟩ := Act.compute.inj hk
    exact .inr ⟨op, hop, hp, rfl, (Function.update_self out op.ty c.ty).symm⟩

theorem Typed.phi (l : Label) (t : Ty) : (c.phi x l t).Typed := by
  refine h.define hc hx rfl rfl fun k out z hk => .inl ?_
  rwa [(phi_block c x l k t).2.1] at hk

end

theorem Typed.of_lines (h : c.Typed) (hsig : d.sig = c.sig) (hty : d.ty = c.ty)
    (hlines : ∀ l out k, Act.compute out k ∈ (d.block l).code → Act.compute out k ∈ (c.block l).code) :
    d.Typed where
  params n t ht := by
    rw [hty]
    exact h.params n t (hsig ▸ ht)
  lines l out k hk := by
    rw [hty]
    exact h.lines l out k (hlines l out k hk)

theorem Typed.store (h : c.Typed) (t : Ty) (p x : Ref) : (c.store t p x).Typed := by
  refine h.of_lines rfl rfl fun l out k hk => (mem_push_code hk).resolve_right ?_
  exact nofun

theorem Typed.terminate (h : c.Typed) (e : Exit) : (c.terminate e).Typed :=
  h.of_lines rfl rfl fun l out k hk => by rwa [(terminate_block c e l).2.1] at hk

end Chart

/-! ## Calls -/

namespace Generator

/-- The generator describes a typed chart of a function without an edge to its entry. -/
structure Describes (g : Generator) (sig : Signature) (c : Chart) : Prop where
  models : g.Models c
  consistent : c.Consistent
  typed : c.Typed
  sig : c.sig = sig
  entry : ∀ l, ¬ Graph.Edge c.succs l Graph.entry

/-- Something failed, or the generator describes a typed chart. -/
def Typed (g : Generator) (sig : Signature) : Prop :=
  g.Broken ∨ ∃ c, g.Describes sig c

variable {g : Generator} {sig : Signature} {c d : Chart}

theorem Describes.keep (h : g.Describes sig c) {g' : Generator} (hm : g'.Models d)
    (hd : d.Consistent) (ht : d.Typed) (hk : c.Keeps d) : g'.Typed sig :=
  .inr ⟨d, hm, hd, ht, hk.sig.trans h.sig, hk.succs ▸ h.entry⟩

theorem describes_start (b : Backend) (p : Option Position) (name : String)
    (hsig : ∀ t ∈ sig.params, t.kind ≠ .invalid) :
    (((ofBackend b).setPosition p).start name sig).2.Describes sig (.ofSig sig) := by
  obtain ⟨g, hg, hm⟩ := start_models b p name hsig
  rw [hg]
  refine ⟨hm, Chart.consistent_ofSig sig, Chart.typed_ofSig sig, rfl, fun l hedge => ?_⟩
  rw [Graph.Edge, Chart.succs_ofSig] at hedge
  cases hedge

section

variable (h : g.Describes sig c)
include h

theorem Describes.setPosition (p : Option Position) : (g.setPosition p).Describes sig c :=
  { h with models := h.models.setPosition p }

theorem Describes.newBlock (name : String) :
    ∃ b g', g.newBlock name = .ok (b, g') ∧ b ≠ 0 ∧ g'.Describes sig c.newBlock := by
  obtain ⟨g', hg, hm⟩ := h.models.newBlock h.consistent name
  have hne : (c.size : Int) ≠ 0 := by
    have := h.consistent.pos
    omega
  exact ⟨_, g', hg, hne, hm, h.consistent.newBlock, h.typed.of_lines rfl rfl fun _ _ _ => id, h.sig, h.entry⟩

theorem Describes.setBlock (b : BlockId) : ∃ g', g.setBlock b = .ok g' ∧ g'.Typed sig := by
  by_cases hb : 0 ≤ b ∧ b < c.size
  · obtain ⟨g', hg, hm⟩ := h.models.setBlock hb
    have hlt : b.toNat < c.size := (Int.toNat_lt hb.1).2 hb.2
    exact ⟨g', hg, h.keep hm (h.consistent.setBlock hlt) (h.typed.of_lines rfl rfl fun _ _ _ => id)
      ⟨rfl, fun _ => id, rfl⟩⟩
  · obtain ⟨g', hg, hbroken⟩ := h.models.setBlock_refused h.consistent hb
    exact ⟨g', hg, .inl hbroken⟩

theorem Describes.value {op : Operation} (hp : op.Pointed) : (g.value op).2.Typed sig := by
  by_cases hok : c.Unended ∧ op.Fits c.ty
  · obtain ⟨x, g', hg, hx, h0, hm⟩ := h.models.value h.consistent hok.1 hok.2
    rw [hg]
    exact h.keep hm (h.consistent.value hx h0 hok.2) (h.typed.value h.consistent hx hok.2 hp)
      (c.keeps_value x op)
  · exact .inl (h.models.value_refused h.consistent hok)

theorem Describes.store (t : Ty) (p x : Ref) : (g.store t p x).Typed sig := by
  by_cases hok : c.Unended ∧ (c.ty p).isPtr = true ∧ c.ty x = t ∧ t.kind ≠ .invalid
  · obtain ⟨hl, hp, hx, ht⟩ := hok
    exact h.keep (h.models.store h.consistent hl hp hx ht) (h.consistent.store hp hx ht)
      (h.typed.store t p x) (c.keeps_store t p x)
  · exact .inl (h.models.store_refused h.consistent hok)

theorem Describes.terminate {e : Exit} (he : (Graph.entry : Int) ∉ e.targets) :
    (g.terminate e).Typed sig := by
  by_cases hok : c.Unended ∧ e.Fits c.sig.result c.size c.ty
  · exact .inr ⟨_, h.models.terminate h.consistent hok.1 hok.2, h.consistent.terminate hok.2,
      h.typed.terminate e, h.sig, fun l hedge => (Chart.edge_terminate hedge).elim (h.entry l) he⟩
  · exact .inl (h.models.terminate_refused h.consistent hok)

theorem Describes.phi (join : BlockId) (t : Ty) : (g.phi join t).2.Typed sig := by
  by_cases hok : (0 ≤ join ∧ join < c.size) ∧ t.kind ≠ .invalid
  · obtain ⟨x, g', hg, hx, h0, hm⟩ := h.models.phi h.consistent hok.1 hok.2
    rw [hg]
    have hlt : join.toNat < c.size := (Int.toNat_lt hok.1.1).2 hok.1.2
    exact h.keep hm (h.consistent.phi_call hx h0 hlt hok.2) (h.typed.phi h.consistent hx _ t)
      (c.keeps_phi x _ t)
  · exact .inl (h.models.phi_refused h.consistent hok)

theorem Describes.addIncoming (id : Ref) (source : BlockId) (x : Ref) :
    (g.addIncoming id source x).Typed sig := by
  by_cases hok : (0 ≤ source ∧ source < c.size) ∧ ∃ l, c.home id = some ⟨l, none⟩
  · obtain ⟨hs, l, hid⟩ := hok
    exact h.keep (h.models.addIncoming h.consistent hid hs x) (h.consistent.join hid hs)
      (h.typed.of_lines rfl rfl fun _ _ _ => fun hk => hk) ⟨rfl, fun _ hy => hy, rfl⟩
  · exact .inl (h.models.addIncoming_refused h.consistent hok)

end

end Generator

/-! ## Runs -/

/-- Along every run all registers hold words that are normal for the types of the values they stand for.
A program in single assignment form has its arguments in place before the first step; what it does from
block to block is made of the steps looked at here. -/
inductive Program.Normal (p : Program) (ty : Ref → Ty) (args : Array Word) (m : Memory) : Prop
  | machine {o : Machine.Object} : p.image = .machine o →
      (∀ k u, Walks (o.step args) k (o.start m) u → ∀ x, (u.regs.read x).Normal (ty x).kind) →
      p.Normal ty args m
  | ssa {q : Ssa.Program} {r : Registers} : p.image = .ssa q →
      Ssa.Program.placeArgs args 0 q.args (Array.replicate q.regs Word.zero) = .ok r →
      (∀ k u, Walks q.advance k ⟨(Graph.entry : Int), 0, r, m⟩ u →
        ∀ x, (u.regs.read x).Normal (ty x).kind) →
      (∀ k u, Walks q.step k ⟨(Graph.entry : Int), r, m⟩ u →
        ∃ n, Walks q.advance n ⟨(Graph.entry : Int), 0, r, m⟩ u.point) → p.Normal ty args m

theorem MachineDraft.Models.normal {g : MachineDraft} (h : g.Models c) (hc : c.Consistent) (hw : c.WellFormed)
    (ht : c.Typed) (hargs : Chart.NormalArgs c.sig args) (m : Memory) :
    ∃ p, g.finalize = .ok (g.closed, .ok p) ∧ p.Normal c.ty args m := by
  obtain ⟨p, gr, o, hf, hp, hg, hl⟩ := h.finalize_ok hc hw
  have hfollows := MachineDraft.follows args h.closed_draws hc hw hg hl
  refine ⟨p, hf, .machine hp fun k u hu x => ?_⟩
  obtain ⟨n, s, hs, hcarries⟩ := hfollows.carries (MachineDraft.runs_start hg m) hu
  have hnormal := ht.walks hc hw hargs (Chart.reached_start m) (c.normal_start m) hs
  by_cases hx : c.home x = none
  · rw [hc.ty_eq_void hx]
    exact Word.normal_invalid _
  · exact hcarries.normal hnormal hx

theorem SsaDraft.Models.normal (h : g.Models c) (hc : c.Consistent) (hw : c.WellFormed)
    (hentry : c.EntryOnce) (ht : c.Typed)
    (hsize : args.size = c.sig.params.length) (hargs : Chart.NormalArgs c.sig args) (m : Memory) :
    ∃ g' p, g.finalize = .ok (g', .ok p) ∧ p.Normal c.ty args m := by
  obtain ⟨g', p, q, f, σ, hf, hp, hσ, hd, hcomp⟩ := h.finalize_ok hc hw hentry
  have hc' := hσ.consistent hw hc
  have hw' := hσ.wellFormed hw hc
  have ht' := ht.simplify hc hw hσ
  obtain ⟨r, s, hregs, hwalk, -, -, hpoints⟩ := hcomp.points_start args hd hc' hsize m
  have hfollows := Ssa.Program.follows args hd hc' hw' hcomp (hentry.simplify σ)
  refine ⟨g', p, hf, .ssa hp hregs (fun k u hu x => ?_) fun k u hu => ?_⟩
  · obtain ⟨n, s', ha⟩ := (hfollows.accompanies hpoints hu).resolve_left fun hdep => hdep.1
    have hwalk' := hwalk.trans ha.walks
    have hread : u.regs.read x = s'.values x := ha.related.holds.read x
    rw [hread]
    by_cases hx : (c.simplify σ).home x = none
    · rw [Chart.walks_zero hc' hx rfl hwalk']
      exact Word.normal_zero _
    · have hσx : σ x = x := by
        by_contra hne
        exact hx (if_neg hne)
      rw [← Chart.simplify_ty hσx]
      exact ht'.walks hc' hw' hargs (Chart.reached_start m) ((c.simplify σ).normal_start m) hwalk' x
  · obtain ⟨n, t, ht, rfl⟩ := q.simulates_advance.walks rfl hu
    exact ⟨n, ht⟩

/-- Finishing leaves the types of the values as they are. -/
theorem SsaDraft.finalize_types {g' : SsaDraft} (h : g.finalize = .ok (g', .ok p)) :
    g'.draft.types = g.draft.types := by
  simp only [SsaDraft.finalize, bind, Except.bind, pure, Except.pure] at h
  split at h
  · cases h
  split at h
  · cases h
  · cases h
  split at h
  · cases h
  split at h
  · cases h
  split at h
  · cases h
  · cases h
    rfl

/-- A typed chart without an edge to its entry becomes a program whose runs keep all registers normal, as
well as what they return. -/
theorem Generator.Describes.normal {g g' : Generator} {sig : Signature} (h : g.Describes sig c)
    (hf : g.finalize = .ok (g', .ok p)) (hsize : args.size = sig.params.length)
    (hargs : Chart.NormalArgs sig args) (m : Memory) : p.Normal g'.draft.typeOf args m ∧
      ∀ fuel w m', p.run fuel args m = .done w m' → w.Normal sig.result.kind := by
  obtain ⟨hm, hc, ht, rfl, hentry⟩ := h
  have hw : c.WellFormed := by
    by_contra hno
    obtain ⟨g'', e, hf'⟩ := hm.finalize_refused hc hno
    rw [hf] at hf'
    cases hf'
  constructor
  · cases g with
    | machine g =>
      obtain ⟨p', hf', hp⟩ := MachineDraft.Models.normal hm hc hw ht hargs m
      simp only [Generator.finalize, hf', Except.map, Prod.map, id, Except.ok.injEq, Prod.mk.injEq] at hf
      have hty : g.closed.draft.typeOf = c.ty := funext (MachineDraft.Models.draft hm).types
      rw [← hf.1, ← hf.2]
      exact hty ▸ hp
    | ssa g =>
      obtain ⟨g'', p', hf', hp⟩ := SsaDraft.Models.normal hm hc hw hentry ht hsize hargs m
      simp only [Generator.finalize, hf', Except.map, Prod.map, id, Except.ok.injEq, Prod.mk.injEq] at hf
      have hty : g''.draft.typeOf = c.ty := by
        rw [← funext (SsaDraft.Models.draft hm).types]
        exact funext fun x => by rw [Draft.typeOf, Draft.typeOf, SsaDraft.finalize_types hf']
      rw [← hf.1, ← hf.2]
      exact hty ▸ hp
  · intro fuel w m' hrun
    obtain ⟨g'', p', hf', hperforms⟩ := hm.finalize_ok hc hw hentry
    obtain ⟨-, rfl⟩ : g'' = g' ∧ p' = p := by simpa [hf] using hf'.symm
    have hends := (hperforms args m (.done w m') hsize).2 ⟨by simp, fuel, hrun⟩
    exact ht.ends hc hw hargs (Chart.reached_start m) (c.normal_start m) hends rfl

end Codesmith.Gen
