import Codesmith.Proofs.Chart.Carried
import Codesmith.Proofs.Chart.Rename
import Codesmith.Proofs.Chart.Simplify
import Codesmith.Proofs.Word.Normal

/-!
# Typed charts

In a typed chart every computed value has the type of the operation that computes it, and pointers that
were advanced have a pointer type. Runs of such charts keep all values normal for their types: each line
yields a normal word, and an edge carries values of one type.
-/

namespace Codesmith.Gen

namespace Operation

variable {op : Operation} {ty : Ref → Ty}

def Pointed : Operation → Prop
  | ptrAdd t _ _ _ => t.kind = .ptr
  | _ => True

theorem Pointed.rename (h : op.Pointed) (f : Ref → Ref) : (op.rename f).Pointed := by
  cases op <;> exact h

/-- Types given to new values do not matter for an operation. -/
theorem Fits.mono {ty' : Ref → Ty} (h : ∀ x, ty x ≠ .void → ty' x = ty x) (hop : op.Fits ty) :
    op.Fits ty' := by
  have hreads : ∀ x ∈ op.compute.reads, ty' x = ty x := fun x hx => h x ((hop.act 0).reads x hx)
  cases op with
  | const t z => exact hop
  | binary op t l r =>
    simp only [Fits, hreads l (by simp [compute, Compute.reads]), hreads r (by simp [compute, Compute.reads])]
    exact hop
  | unary op t z =>
    simp only [Fits, hreads z (by simp [compute, Compute.reads])]
    exact hop
  | compare cond t l r =>
    simp only [Fits, hreads l (by simp [compute, Compute.reads]), hreads r (by simp [compute, Compute.reads])]
    exact hop
  | convert target source z =>
    simp only [Fits, hreads z (by simp [compute, Compute.reads])]
    exact hop
  | ptrAdd t p i scale =>
    simp only [Fits, hreads p (by simp [compute, Compute.reads]), hreads i (by simp [compute, Compute.reads])]
    exact hop
  | ptrDiff p q scale =>
    simp only [Fits, hreads p (by simp [compute, Compute.reads]), hreads q (by simp [compute, Compute.reads])]
    exact hop
  | load t p =>
    simp only [Fits, hreads p (by simp [compute, Compute.reads])]
    exact hop

theorem Fits.normal (h : op.Fits ty) (hp : op.Pointed) {v : Ref → Word} (hv : ∀ x, (v x).Normal (ty x).kind)
    {m : Memory} {w : Word} (hw : op.compute.value v m = .ok w) : w.Normal op.ty.kind := by
  cases op with
  | const t z =>
    cases hw
    exact Word.normal_norm t.kind z
  | binary op t l r => exact Word.normal_binary hw
  | unary op t z => exact Word.normal_unary (h.2.2 ▸ hv z) hw
  | compare cond t l r =>
    simp only [compute, Compute.value] at hw
    cases hb : Word.compare cond t.kind (v l) (v r) with
    | error e => rw [hb] at hw; cases hw
    | ok b =>
      rw [hb] at hw
      cases hw
      exact Word.normal_ofBool b
  | convert target source z => exact Word.normal_convert (h.2.2.2 ▸ hv z) hw
  | ptrAdd t p i scale =>
    have ht : (ptrAdd t p i scale).ty.kind = .ptr := hp
    rw [ht]
    exact Word.normal_ptr w
  | ptrDiff p q scale =>
    cases hw
    exact Word.normal_ptrDiff _ _ scale
  | load t p => exact Word.normal_load hw

end Operation

namespace Chart

variable {v : Ref → Word} {x : Ref} {w : Word} {m : Memory} {k : Nat}

/-- Parameters have the types of the signature, and computed values those of their operations. -/
structure Typed (c : Chart) : Prop where
  params : ∀ (n : Nat) t, c.sig.params[n]? = some t → c.ty n = t
  lines : ∀ l out k, Act.compute out k ∈ (c.block l).code →
    ∃ op : Operation, op.Fits c.ty ∧ op.Pointed ∧ op.compute = k ∧ op.ty = c.ty out

def Normal (c : Chart) (v : Ref → Word) : Prop :=
  ∀ x, (v x).Normal (c.ty x).kind

/-- The arguments are normal for the types of the parameters. -/
def NormalArgs (sig : Signature) (args : Array Word) : Prop :=
  ∀ (n : Nat) t w, sig.params[n]? = some t → args[n]? = some w → w.Normal t.kind

variable {c : Chart} {args : Array Word} {s s' : State}

/-! ## Runs -/

theorem normal_start (c : Chart) (m : Memory) : c.Normal (start m).values :=
  fun _ => Word.normal_zero _

theorem Normal.update (h : c.Normal v) (hw : w.Normal (c.ty x).kind) : c.Normal (Function.update v x w) := by
  intro y
  rw [Function.update_apply]
  split
  · subst y
    exact hw
  · exact h y

/-- A line keeps values normal. -/
theorem Typed.run (ht : c.Typed) (hc : c.Consistent) (hargs : NormalArgs c.sig args) {l : Label} {i : Nat}
    {a : Act} (ha : (c.block l).code[i]? = some a) {v' : Ref → Word} {m' : Memory} (hv : c.Normal v)
    (hrun : a.run args v m = .ok (v', m')) : c.Normal v' := by
  cases a with
  | compute out k =>
    obtain ⟨op, hop, hp, rfl, hty⟩ := ht.lines l out k (List.mem_of_getElem? ha)
    obtain ⟨w, hw, heq⟩ := map_eq_ok.1 hrun
    rw [← (Prod.mk.inj heq).1]
    exact hv.update (hty ▸ hop.normal hp hv hw)
  | arg out n =>
    obtain ⟨-, -, rfl, hn⟩ := hc.only l i out n ha
    have hty := ht.params n _ (List.getElem?_eq_getElem hn)
    obtain ⟨w, hw, heq⟩ := map_eq_ok.1 hrun
    rw [← (Prod.mk.inj heq).1]
    refine hv.update ?_
    rw [hty]
    exact hargs n _ w (List.getElem?_eq_getElem hn) (fetch_eq_ok_iff.1 hw)
  | store k p x =>
    obtain ⟨m'', -, heq⟩ := map_eq_ok.1 hrun
    rw [← (Prod.mk.inj heq).1]
    exact hv

theorem Carries.normal {w : Ref → Word} (h : c.Carries w v) (hv : c.Normal v) (hx : c.home x ≠ none) :
    (w x).Normal (c.ty x).kind := by
  obtain ⟨y, hty, hw⟩ := h x hx
  rw [hw, ← hty]
  exact hv y

section

variable (ht : c.Typed) (hc : c.Consistent) (hw : c.WellFormed) (hargs : NormalArgs c.sig args)
  (hr : c.Reached s) (hs : c.Normal s.values)
include ht hc hw hargs hr hs

theorem Typed.step (h : c.step args s = .next s') : c.Normal s'.values := by
  rcases step_cases hc h with ⟨a, v, m', ha, hrun, rfl⟩ | ⟨t, -, hedge, rfl⟩
  · exact ht.run hc hargs ha hs hrun
  · intro x
    by_cases hx : c.home x = none
    · rw [hc.ty_eq_void hx]
      rintro (hk | hk) <;> cases hk
    · exact (hw.carries_enter hr.block hedge fun _ _ => rfl).normal hs hx

theorem Typed.walks (h : Walks (c.step args) k s s') : c.Normal s'.values := by
  induction h with
  | refl => exact hs
  | next hstep _ ih => exact ih (hr.step hc hstep) (ht.step hc hw hargs hr hs hstep)

end

theorem walks_zero (hc : c.Consistent) (hx : c.home x = none) (hs : s.values x = Word.zero)
    (h : Walks (c.step args) k s s') : s'.values x = Word.zero := by
  induction h with
  | refl => exact hs
  | @next k s t s' hstep _ ih =>
    refine ih ?_
    rcases step_cases hc hstep with ⟨a, v, m', ha, hrun, rfl⟩ | ⟨t, -, -, rfl⟩
    · refine (Act.run_of_ne hrun fun hout => ?_).trans hs
      rw [hc.out _ _ a x ha hout] at hx
      cases hx
    · have hphi : x ∉ (c.block t.toNat).phis := fun hmem => by
        rw [(hc.phi _ x).1 hmem] at hx
        cases hx
      exact (if_neg hphi).trans hs

/-- What a run returns is normal for the type of the result. -/
theorem Typed.done (hc : c.Consistent) (hs : c.Normal s.values) (h : c.step args s = .done w m) :
    w.Normal c.sig.result.kind := by
  unfold Chart.step at h
  split at h
  · split at h <;> cases h
  split at h
  · rename_i e he
    have hfits := hc.exits _ e he
    cases e with
    | jump t => cases h
    | branch x yes no => cases h
    | ret x =>
      cases x with
      | none =>
        cases h
        exact Word.normal_zero _
      | some x =>
        cases h
        exact hfits.2 ▸ hs x
  · cases h

section

variable (ht : c.Typed) (hc : c.Consistent) (hw : c.WellFormed)
include ht hc hw

theorem Typed.ends (hargs : NormalArgs c.sig args) (hr : c.Reached s) (hs : c.Normal s.values)
    {o : Outcome Word} (h : Ends (c.step args) s o) (ho : o = .done w m) : w.Normal c.sig.result.kind := by
  induction h with
  | @stop s o hstop =>
    subst ho
    cases hstep : c.step args s with
    | next s' => rw [hstep] at hstop; cases hstop
    | done w' m' =>
      rw [hstep] at hstop
      cases hstop
      exact done hc hs hstep
    | fault f m' => rw [hstep] at hstop; cases hstop
  | next hstep _ ih => exact ih (hr.step hc hstep) (ht.step hc hw hargs hr hs hstep) ho

theorem Typed.simplify {σ : Ref → Ref} (hσ : c.Replaces σ) : (c.simplify σ).Typed := by
  have hty : ∀ x, (c.simplify σ).ty (σ x) = c.ty x := fun x => by
    rw [simplify_ty (hσ.idem x), hσ.ty_eq hw hc]
  constructor
  · intro n t hn
    have hlt : n < c.sig.params.length := (List.getElem?_eq_some_iff.1 hn).1
    rw [simplify_ty (hσ.out hc (hc.args n hlt) rfl)]
    exact ht.params n t hn
  · intro l out k hk
    obtain ⟨i, hi⟩ := List.mem_iff_getElem?.1 hk
    obtain ⟨a, ha, hak⟩ := simplify_getElem?.1 hi
    cases a with
    | compute out' k' =>
      obtain ⟨rfl, rfl⟩ : σ out' = out ∧ k'.rename σ = k := by simpa [Act.rename] using hak
      obtain ⟨op, hop, hp, rfl, hout⟩ := ht.lines l out' k' (List.mem_of_getElem? ha)
      exact ⟨op.rename σ, (Operation.fits_rename hty op).2 hop, hp.rename σ, op.compute_rename σ,
        by rw [Operation.ty_rename, hty, hout]⟩
    | arg out' n => cases hak
    | store k' p x => cases hak

end

end Chart

end Codesmith.Gen
