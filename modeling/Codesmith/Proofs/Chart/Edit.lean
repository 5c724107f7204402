import Codesmith.Proofs.Chart.Basic
import Codesmith.Proofs.Gen.Checks

/-!
# Building charts

Each call to a generator has its counterpart on charts. Where a call makes a new value, the value is
given, as the back ends number their values differently. `Chart.Consistent` is what all charts built by
calls have in common; the verifiers need not check it.
-/

namespace Codesmith.Gen

variable {ty ty' : Ref → Ty} {result : Ty} {n : Nat} {e : Exit}

/-- What a line reads has a type, and its condition is one of the known ones. -/
structure Act.Fits (ty : Ref → Ty) (a : Act) : Prop where
  reads : ∀ x ∈ a.reads, ty x ≠ .void
  cond : ∀ out c k l r, a = .compute out (.compare c k l r) → c.valid = true

section

variable (h : ∀ x, ty x ≠ .void → ty' x = ty x)
include h

/-- Types given to new values do not matter for what was there. -/
theorem Act.Fits.mono {a : Act} (ha : a.Fits ty) : a.Fits ty' :=
  ⟨fun x hx => by rw [h x (ha.reads x hx)]; exact ha.reads x hx, ha.cond⟩

theorem Exit.Fits.mono {n' : Nat} (hn : n ≤ n') (he : e.Fits result n ty) : e.Fits result n' ty' := by
  have hle : (n : Int) ≤ n' := Int.ofNat_le.2 hn
  cases e with
  | jump t => exact ⟨he.1, he.2.trans_le hle⟩
  | branch x yes no =>
    obtain ⟨hx, hyes, hno⟩ := he
    exact ⟨(h x (by simp [hx])).trans hx, ⟨hyes.1, hyes.2.trans_le hle⟩, hno.1, hno.2.trans_le hle⟩
  | ret x =>
    cases x with
    | none => exact he
    | some x => exact ⟨he.1, (h x (he.2 ▸ he.1)).trans he.2⟩

end

theorem Exit.Fits.target (he : e.Fits result n ty) {t : BlockId} (ht : t ∈ e.targets) : 0 ≤ t ∧ t < n := by
  cases e with
  | jump s => exact List.mem_singleton.1 ht ▸ he
  | branch x yes no =>
    simp only [Exit.targets] at ht
    split at ht
    · exact List.mem_singleton.1 ht ▸ he.2.1
    · rcases List.mem_cons.1 ht with rfl | ht
      · exact he.2.1
      · exact List.mem_singleton.1 ht ▸ he.2.2
  | ret x => exact absurd ht List.not_mem_nil

theorem Exit.Fits.reads (h : e.Fits result n ty) {x : Ref} (hx : x ∈ e.reads) : ty x ≠ .void := by
  cases e with
  | jump t => exact absurd hx List.not_mem_nil
  | branch y yes no =>
    rw [List.mem_singleton.1 hx, h.1]
    exact nofun
  | ret y =>
    cases y with
    | none => exact absurd hx List.not_mem_nil
    | some y =>
      rw [List.mem_singleton.1 hx, h.2]
      exact h.1

theorem Operation.Fits.act {op : Operation} (h : op.Fits ty) (x : Ref) :
    (Act.compute x op.compute).Fits ty := by
  have hv : ∀ {y : Ref} {t : Ty}, t.kind ≠ .invalid → ty y = t → ty y ≠ .void :=
    fun ht hy => hy ▸ Ty.ne_void_of_kind ht
  constructor
  · intro y hy
    cases op with
    | const t z => exact absurd hy List.not_mem_nil
    | binary op t l r =>
      obtain ⟨ht, -, hl, hr⟩ := h
      rcases List.mem_cons.1 hy with rfl | hy
      · exact hv ht hl
      · exact List.mem_singleton.1 hy ▸ hv ht hr
    | unary op t z => exact List.mem_singleton.1 hy ▸ hv h.1 h.2.2
    | compare cond t l r =>
      obtain ⟨ht, -, hl, hr⟩ := h
      rcases List.mem_cons.1 hy with rfl | hy
      · exact hv ht hl
      · exact List.mem_singleton.1 hy ▸ hv ht hr
    | convert target source z => exact List.mem_singleton.1 hy ▸ hv h.2.1 h.2.2.2
    | ptrAdd t p i scale =>
      rcases List.mem_cons.1 hy with rfl | hy
      · exact Ty.ne_void_of_isPtr h.1
      · exact List.mem_singleton.1 hy ▸ Ty.ne_void_of_kind h.2.1
    | ptrDiff p q scale =>
      rcases List.mem_cons.1 hy with rfl | hy
      · exact Ty.ne_void_of_isPtr h.1
      · exact List.mem_singleton.1 hy ▸ Ty.ne_void_of_isPtr h.2
    | load t p => exact List.mem_singleton.1 hy ▸ Ty.ne_void_of_isPtr h.1
  · intro out cond k l r heq
    cases op with
    | compare cond' t l' r' =>
      obtain ⟨-, rfl, -⟩ : x = out ∧ cond' = cond ∧ _ := by simpa [Operation.compute] using heq
      have hk := h.2.1
      by_contra hc
      rw [Draft.compareKind, if_pos (by simpa using hc)] at hk
      cases hk
    | _ => simp [Operation.compute] at heq

namespace Chart

variable {x : Ref} {p : Home} {l : Label} {e : Exit} {t : Ty} {i : Nat} {a b : Act} {sig : Signature}

/-! ## Calls -/

def edit (c : Chart) (l : Label) (f : ChartBlock → ChartBlock) : Chart :=
  { c with block := Function.update c.block l (f (c.block l)) }

/-- The chart with a line added to the current block. -/
def push (c : Chart) (a : Act) : Chart :=
  c.edit c.current fun b => { b with code := b.code ++ [a] }

def define (c : Chart) (x : Ref) (h : Home) (t : Ty) : Chart :=
  { c with home := Function.update c.home x (some h), ty := Function.update c.ty x t }

/-- The chart of a function that was just begun. -/
def ofSig (sig : Signature) : Chart where
  sig := sig
  size := 1
  block := fun l => if l = Graph.entry then
    { code := (List.range sig.params.length).map fun (i : Nat) => .arg i i } else {}
  current := Graph.entry
  home := fun x =>
    if 0 ≤ x ∧ x < sig.params.length then some ⟨Graph.entry, some x.toNat⟩ else none
  ty := fun x => (fetch? sig.params.toArray x).getD .void
  incoming := fun _ => []

def newBlock (c : Chart) : Chart :=
  { c with size := c.size + 1 }

def setBlock (c : Chart) (l : Label) : Chart :=
  { c with current := l }

/-- A new value in the current block. -/
def value (c : Chart) (x : Ref) (op : Operation) : Chart :=
  (c.define x ⟨c.current, some (c.length c.current)⟩ op.ty).push (.compute x op.compute)

/-- A store in the current block. -/
def store (c : Chart) (t : Ty) (p x : Ref) : Chart :=
  c.push (.store t.kind p x)

/-- End the current block. -/
def terminate (c : Chart) (e : Exit) : Chart :=
  c.edit c.current fun b => { b with exit := some e }

/-- A new value at the head of a block. -/
def phi (c : Chart) (x : Ref) (l : Label) (t : Ty) : Chart :=
  (c.define x ⟨l, none⟩ t).edit l fun b => { b with phis := b.phis ++ [x] }

/-- Let a value join another on the edge from a block. -/
def join (c : Chart) (id : Ref) (source : BlockId) (x : Ref) : Chart :=
  { c with incoming := Function.update c.incoming id (c.incoming id ++ [⟨source, x⟩]) }

/-! ## Consistency -/

/-- What all charts built by calls have in common. -/
structure Consistent (c : Chart) : Prop where
  pos : 0 < c.size
  current : c.current < c.size
  beyond : ∀ l, c.size ≤ l → c.block l = {}
  phi : ∀ l x, x ∈ (c.block l).phis ↔ c.home x = some ⟨l, none⟩
  nodup : ∀ l, (c.block l).phis.Nodup
  out : ∀ l i a x, (c.block l).code[i]? = some a → a.out? = some x → c.home x = some ⟨l, some i⟩
  placed : ∀ l i x, c.home x = some ⟨l, some i⟩ →
    ∃ a, (c.block l).code[i]? = some a ∧ a.out? = some x
  nonneg : ∀ x, c.home x ≠ none → 0 ≤ x
  typed : ∀ x, c.ty x ≠ .void → c.home x ≠ none
  scalar : ∀ l x, c.home x = some ⟨l, none⟩ → (c.ty x).kind ≠ .invalid
  joint : ∀ x, c.incoming x ≠ [] → ∃ l, c.home x = some ⟨l, none⟩
  source : ∀ x, ∀ e ∈ c.incoming x, 0 ≤ e.source ∧ e.source < c.size
  lines : ∀ l, ∀ a ∈ (c.block l).code, a.Fits c.ty
  exits : ∀ l e, (c.block l).exit = some e → e.Fits c.sig.result c.size c.ty
  args : ∀ i < c.sig.params.length, (c.block Graph.entry).code[i]? = some (.arg i i)
  only : ∀ (l : Label) (i : Nat) (x : Ref) (n : Nat), (c.block l).code[i]? = some (.arg x n) →
    l = Graph.entry ∧ i = n ∧ x = (n : Int) ∧ n < c.sig.params.length

variable {c : Chart}

section

variable (h : c.Consistent)
include h

theorem Consistent.ty_eq_void (hx : c.home x = none) : c.ty x = .void := by
  by_contra hv
  exact h.typed x hv hx

theorem Consistent.home_noRef : c.home noRef = none := by
  by_contra hne
  exact absurd (h.nonneg noRef hne) (by decide)

theorem Consistent.home_block_lt (hx : c.home x = some p) : p.block < c.size := by
  by_contra hlt
  have hb := h.beyond p.block (Nat.le_of_not_lt hlt)
  obtain ⟨l, i | i⟩ := p
  · have := (h.phi l x).2 hx
    rw [hb] at this
    cases this
  · obtain ⟨a, ha, -⟩ := h.placed l i x hx
    rw [hb] at ha
    exact absurd ha (by simp)

theorem Consistent.inRange : Graph.InRange c.size c.succs := by
  intro l _ s hs
  unfold succs at hs
  cases he : (c.block l).exit with
  | none => rw [he] at hs; exact absurd hs List.not_mem_nil
  | some e =>
    rw [he] at hs
    exact (h.exits l e he).target hs

theorem Consistent.edge (he : (c.block l).exit = some e) {t : BlockId} (ht : t ∈ e.targets) :
    (0 ≤ t ∧ t < c.size) ∧ Graph.Edge c.succs l t.toNat := by
  have hin := (h.exits l e he).target ht
  refine ⟨hin, ?_⟩
  rw [Graph.Edge, Int.toNat_of_nonneg hin.1, succs, he]
  exact ht

theorem Consistent.build_ok : ∃ g, Graph.build c.size c.succs = .ok g ∧ g.Describes c.size c.succs :=
  Graph.build_ok h.pos h.inRange

theorem Consistent.reaches_lt (hl : Graph.Reaches c.succs l) : l < c.size := by
  obtain ⟨g, -, hg⟩ := h.build_ok
  exact hg.order.lt l ((hg.order.mem l).2 hl)

theorem Consistent.home_unique {l' : Label} {i' : Nat} {a' : Act} (ha : (c.block l).code[i]? = some a)
    (hx : a.out? = some x) (ha' : (c.block l').code[i']? = some a') (hx' : a'.out? = some x) :
    l = l' ∧ i = i' := by
  have := (h.out l i a x ha hx).symm.trans (h.out l' i' a' x ha' hx')
  simpa using this

end

/-! ## What a call changes -/

theorem edit_block (c : Chart) (l k : Label) (f : ChartBlock → ChartBlock) :
    (c.edit l f).block k = if k = l then f (c.block l) else c.block k := by
  simp only [edit, Function.update_apply]

@[simp] theorem push_phis (c : Chart) (a : Act) (l : Label) :
    ((c.push a).block l).phis = (c.block l).phis := by
  rw [push, edit_block]
  split <;> simp [*]

@[simp] theorem push_exit (c : Chart) (a : Act) (l : Label) :
    ((c.push a).block l).exit = (c.block l).exit := by
  rw [push, edit_block]
  split <;> simp [*]

theorem push_code (c : Chart) (a : Act) (l : Label) :
    ((c.push a).block l).code = (c.block l).code ++ if l = c.current then [a] else [] := by
  rw [push, edit_block]
  split <;> simp [*]

theorem push_getElem? : ((c.push a).block l).code[i]? = some b ↔
      (c.block l).code[i]? = some b ∨ l = c.current ∧ i = c.length l ∧ b = a := by
  rw [push_code]
  by_cases hl : l = c.current
  · rw [if_pos hl, List.getElem?_append]
    simp only [hl, length, true_and]
    split
    · constructor
      · exact .inl
      · rintro (h | ⟨rfl, -⟩)
        · exact h
        · omega
    · rename_i hi
      rw [List.getElem?_eq_none (Nat.le_of_not_lt hi), List.getElem?_singleton]
      have : i - (c.block c.current).code.length = 0 ↔ i = (c.block c.current).code.length := by omega
      simp [this, eq_comm]
  · simp [hl]

theorem mem_push_code (hb : b ∈ ((c.push a).block l).code) : b ∈ (c.block l).code ∨ b = a := by
  rw [push_code] at hb
  split at hb
  · exact (List.mem_append.1 hb).imp_right List.mem_singleton.1
  · exact .inl (by simpa using hb)

/-! ## Calls keep charts consistent -/

theorem ofSig_getElem? : ((ofSig sig).block l).code[i]? = some a ↔
      l = Graph.entry ∧ i < sig.params.length ∧ a = .arg i i := by
  simp only [ofSig]
  split
  · rename_i hl
    by_cases hi : i < sig.params.length
    · simp [hl, hi, eq_comm]
    · simp [hi]
  · simp [*]

theorem ofSig_home : (ofSig sig).home x = some p ↔
      ∃ i < sig.params.length, x = (i : Int) ∧ p = ⟨Graph.entry, some i⟩ := by
  simp only [ofSig, Option.ite_none_right_eq_some, Option.some.injEq]
  constructor
  · rintro ⟨⟨h0, h1⟩, rfl⟩
    obtain ⟨i, rfl⟩ := Int.eq_ofNat_of_zero_le h0
    exact ⟨i, Int.ofNat_lt.1 h1, rfl, rfl⟩
  · rintro ⟨i, hi, rfl, rfl⟩
    exact ⟨⟨Int.natCast_nonneg i, Int.ofNat_lt.2 hi⟩, rfl⟩

theorem consistent_ofSig (sig : Signature) : (ofSig sig).Consistent where
  pos := Nat.zero_lt_one
  current := Nat.zero_lt_one
  beyond l hl := if_neg (Nat.ne_of_gt hl)
  phi l x := by
    refine iff_of_false ?_ fun h => ?_
    · simp only [ofSig]
      split <;> exact List.not_mem_nil
    · obtain ⟨i, -, -, hp⟩ := ofSig_home.1 h
      cases hp
  nodup l := by
    simp only [ofSig]
    split <;> exact List.nodup_nil
  out l i a x ha hx := by
    obtain ⟨rfl, hi, rfl⟩ := ofSig_getElem?.1 ha
    exact ofSig_home.2 ⟨i, hi, (Option.some.inj hx).symm, rfl⟩
  placed l i x hx := by
    obtain ⟨j, hj, rfl, hp⟩ := ofSig_home.1 hx
    obtain ⟨rfl, hij⟩ := Home.mk.inj hp
    cases hij
    exact ⟨_, ofSig_getElem?.2 ⟨rfl, hj, rfl⟩, rfl⟩
  nonneg x hx := by
    obtain ⟨p, hp⟩ := Option.ne_none_iff_exists'.1 hx
    obtain ⟨i, -, rfl, -⟩ := ofSig_home.1 hp
    exact Int.natCast_nonneg i
  typed x hx hn := by
    cases x with
    | negSucc k => exact hx rfl
    | ofNat k =>
      by_cases hk : k < sig.params.length
      · have := ofSig_home.2 ⟨k, hk, rfl, rfl⟩
        rw [Int.ofNat_eq_natCast, this] at hn
        cases hn
      · exact hx (by simp [ofSig, fetch?, hk])
  scalar l x hx := by
    obtain ⟨i, -, -, hp⟩ := ofSig_home.1 hx
    cases hp
  joint x hx := absurd rfl hx
  source x e he := absurd he List.not_mem_nil
  lines l a ha := by
    obtain ⟨i, hi⟩ := List.mem_iff_getElem?.1 ha
    obtain ⟨-, -, rfl⟩ := ofSig_getElem?.1 hi
    exact ⟨List.forall_mem_nil _, by simp⟩
  exits l e he := by
    simp only [ofSig] at he
    split at he <;> cases he
  args i hi := ofSig_getElem?.2 ⟨rfl, hi, rfl⟩
  only l i x n ha := by
    obtain ⟨rfl, hi, ha⟩ := ofSig_getElem?.1 ha
    obtain ⟨rfl, rfl⟩ := Act.arg.inj ha
    exact ⟨rfl, rfl, rfl, hi⟩

section

variable (h : c.Consistent)
include h

theorem Consistent.newBlock : c.newBlock.Consistent where
  pos := Nat.succ_pos _
  current := h.current.trans (Nat.lt_succ_self _)
  beyond l hl := h.beyond l (Nat.le_of_succ_le hl)
  phi := h.phi
  nodup := h.nodup
  out := h.out
  placed := h.placed
  nonneg := h.nonneg
  typed := h.typed
  scalar := h.scalar
  joint := h.joint
  source x e he := by
    obtain ⟨h0, h1⟩ := h.source x e he
    exact ⟨h0, h1.trans (by simp [Chart.newBlock])⟩
  lines := h.lines
  exits l e he := (h.exits l e he).mono (fun _ _ => rfl) (Nat.le_succ _)
  args := h.args
  only := h.only

theorem Consistent.setBlock (hl : l < c.size) : (c.setBlock l).Consistent :=
  { h with current := hl }

theorem Consistent.value (hx : c.home x = none) (h0 : 0 ≤ x) {op : Operation} (hop : op.Fits c.ty) :
    (c.value x op).Consistent := by
  have hv := h.ty_eq_void hx
  have hty : ∀ y, c.ty y ≠ .void → Function.update c.ty x op.ty y = c.ty y := by
    intro y hy
    refine Function.update_of_ne (fun he => hy ?_) _ _
    rw [he, hv]
  have hhome : ∀ y, Function.update c.home x (some ⟨c.current, some (c.length c.current)⟩) y =
      if y = x then some ⟨c.current, some (c.length c.current)⟩ else c.home y :=
    fun y => Function.update_apply _ _ _ _
  have hne : ∀ y p, c.home y = some p → y ≠ x := by
    rintro y p hy rfl
    rw [hx] at hy
    cases hy
  have hcode := fun l i b => push_getElem? (c := c.define x ⟨c.current, some (c.length c.current)⟩ op.ty)
    (a := .compute x op.compute) (b := b) (l := l) (i := i)
  exact {
    pos := h.pos
    current := h.current
    beyond := fun l hl => by
      have hlc : l ≠ c.current := fun he => absurd h.current (Nat.not_lt.2 (he ▸ hl))
      rw [Chart.value, push, edit_block]
      exact (if_neg hlc).trans (h.beyond l hl)
    phi := fun l y => by
      refine (by simp [Chart.value, define] : y ∈ ((c.value x op).block l).phis ↔ _).trans
        ((h.phi l y).trans ?_)
      show c.home y = _ ↔ Function.update c.home x _ y = _
      rw [hhome]
      by_cases hy : y = x
      · simp [hy, hx]
      · rw [if_neg hy]
    nodup := fun l => by
      simp only [Chart.value, push_phis]
      exact h.nodup l
    out := fun l i a y ha hy => by
      show Function.update c.home x _ y = _
      rw [hhome]
      rcases (hcode l i a).1 ha with ha | ⟨rfl, rfl, rfl⟩
      · have hyh := h.out l i a y ha hy
        rw [if_neg (hne y _ hyh), hyh]
      · cases hy
        rw [if_pos rfl]
        rfl
    placed := fun l i y hy => by
      change Function.update c.home x _ y = _ at hy
      rw [hhome] at hy
      split at hy
      · rename_i hyx
        obtain ⟨rfl, rfl⟩ : c.current = l ∧ c.length c.current = i := by simpa using hy
        exact ⟨_, (hcode _ _ _).2 (.inr ⟨rfl, rfl, rfl⟩), hyx ▸ rfl⟩
      · obtain ⟨a, ha, hay⟩ := h.placed l i y hy
        exact ⟨a, (hcode l i a).2 (.inl ha), hay⟩
    nonneg := fun y hy => by
      change Function.update c.home x _ y ≠ _ at hy
      rw [hhome] at hy
      split at hy
      · rename_i hyx
        exact hyx ▸ h0
      · exact h.nonneg y hy
    typed := fun y hy => by
      change Function.update c.ty x op.ty y ≠ _ at hy
      show Function.update c.home x _ y ≠ _
      rw [hhome]
      split
      · exact nofun
      · rename_i hyx
        rw [Function.update_of_ne hyx] at hy
        exact h.typed y hy
    scalar := fun l y hy => by
      change Function.update c.home x _ y = _ at hy
      rw [hhome] at hy
      split at hy
      · cases hy
      · rename_i hyx
        show (Function.update c.ty x op.ty y).kind ≠ _
        rw [Function.update_of_ne hyx]
        exact h.scalar l y hy
    joint := fun y hy => by
      obtain ⟨l, hl⟩ := h.joint y hy
      refine ⟨l, ?_⟩
      show Function.update c.home x _ y = _
      rw [hhome, if_neg (hne y _ hl), hl]
    source := h.source
    lines := fun l a ha => by
      rcases mem_push_code ha with ha | rfl
      · exact (h.lines l a ha).mono hty
      · exact (hop.act x).mono hty
    exits := fun l e he => by
      refine (h.exits l e ?_).mono hty le_rfl
      simpa [Chart.value, define] using he
    args := fun i hi => (hcode _ _ _).2 (.inl (h.args i hi))
    only := fun l i y n ha => by
      rcases (hcode _ _ _).1 ha with ha | ⟨-, -, ha⟩
      · exact h.only l i y n ha
      · cases ha }

theorem Consistent.store {p : Ref} (hp : (c.ty p).isPtr = true) (hx : c.ty x = t) (ht : t.kind ≠ .invalid) :
    (c.store t p x).Consistent := by
  have hfits : (Act.store t.kind p x).Fits c.ty := by
    refine ⟨fun y hy => ?_, nofun⟩
    rcases List.mem_cons.1 hy with rfl | hy
    · exact Ty.ne_void_of_isPtr hp
    · rw [List.mem_singleton.1 hy, hx]
      exact Ty.ne_void_of_kind ht
  have hcode := fun l i b => push_getElem? (c := c) (a := .store t.kind p x) (b := b) (l := l) (i := i)
  exact {
    pos := h.pos
    current := h.current
    beyond := fun l hl => by
      have hlc : l ≠ c.current := fun he => absurd h.current (Nat.not_lt.2 (he ▸ hl))
      rw [Chart.store, push, edit_block]
      exact (if_neg hlc).trans (h.beyond l hl)
    phi := fun l y => by
      rw [Chart.store, push_phis]
      exact h.phi l y
    nodup := fun l => by
      rw [Chart.store, push_phis]
      exact h.nodup l
    out := fun l i a y ha hy => by
      rcases (hcode l i a).1 ha with ha | ⟨-, -, rfl⟩
      · exact h.out l i a y ha hy
      · cases hy
    placed := fun l i y hy => by
      obtain ⟨a, ha, hay⟩ := h.placed l i y hy
      exact ⟨a, (hcode l i a).2 (.inl ha), hay⟩
    nonneg := h.nonneg
    typed := h.typed
    scalar := h.scalar
    joint := h.joint
    source := h.source
    lines := fun l a ha => by
      rcases mem_push_code ha with ha | rfl
      · exact h.lines l a ha
      · exact hfits
    exits := fun l e he => h.exits l e (by rwa [Chart.store, push_exit] at he)
    args := fun i hi => (hcode _ _ _).2 (.inl (h.args i hi))
    only := fun l i y n ha => by
      rcases (hcode _ _ _).1 ha with ha | ⟨-, -, ha⟩
      · exact h.only l i y n ha
      · cases ha }

end

/-- The exit of a block does not concern its values. -/
theorem terminate_block (c : Chart) (e : Exit) (l : Label) :
    ((c.terminate e).block l).phis = (c.block l).phis ∧ ((c.terminate e).block l).code = (c.block l).code ∧
        ((c.terminate e).block l).exit = if l = c.current then some e else (c.block l).exit := by
  rw [terminate, edit_block]
  split <;> simp [*]

theorem Consistent.terminate (h : c.Consistent) (he : e.Fits c.sig.result c.size c.ty) :
    (c.terminate e).Consistent where
  pos := h.pos
  current := h.current
  beyond l hl := by
    have hlc : l ≠ c.current := fun he => absurd h.current (Nat.not_lt.2 (he ▸ hl))
    rw [Chart.terminate, edit_block]
    exact (if_neg hlc).trans (h.beyond l hl)
  phi l x := by
    rw [(terminate_block c e l).1]
    exact h.phi l x
  nodup l := by
    rw [(terminate_block c e l).1]
    exact h.nodup l
  out l i a x ha := by
    rw [(terminate_block c e l).2.1] at ha
    exact h.out l i a x ha
  placed l i x hx := by
    rw [(terminate_block c e l).2.1]
    exact h.placed l i x hx
  nonneg := h.nonneg
  typed := h.typed
  scalar := h.scalar
  joint := h.joint
  source := h.source
  lines l a ha := by
    rw [(terminate_block c e l).2.1] at ha
    exact h.lines l a ha
  exits l e' he' := by
    rw [(terminate_block c e l).2.2] at he'
    split at he'
    · exact Option.some.inj he' ▸ he
    · exact h.exits l e' he'
  args i hi := by
    rw [(terminate_block c e _).2.1]
    exact h.args i hi
  only l i x n ha := by
    rw [(terminate_block c e l).2.1] at ha
    exact h.only l i x n ha

theorem phi_block (c : Chart) (x : Ref) (l k : Label) (t : Ty) :
    ((c.phi x l t).block k).phis = (c.block k).phis ++ (if k = l then [x] else []) ∧
      ((c.phi x l t).block k).code = (c.block k).code ∧ ((c.phi x l t).block k).exit = (c.block k).exit := by
  rw [phi, edit_block]
  split <;> simp [*, define]

theorem Consistent.phi_call (h : c.Consistent) (hx : c.home x = none) (h0 : 0 ≤ x) (hl : l < c.size)
    (ht : t.kind ≠ .invalid) : (c.phi x l t).Consistent := by
  have hty : ∀ y, c.ty y ≠ .void → Function.update c.ty x t y = c.ty y := by
    intro y hy
    refine Function.update_of_ne (fun he => hy ?_) _ _
    rw [he, h.ty_eq_void hx]
  have hhome : ∀ y, (c.phi x l t).home y = if y = x then some ⟨l, none⟩ else c.home y :=
    fun y => Function.update_apply _ _ _ _
  have htype : ∀ y, (c.phi x l t).ty y = if y = x then t else c.ty y := fun y => Function.update_apply _ _ _ _
  have hne : ∀ y p, c.home y = some p → y ≠ x := by
    rintro y p hy rfl
    rw [hx] at hy
    cases hy
  have hxp : ∀ k, x ∉ (c.block k).phis := fun k hk => by
    rw [h.phi, hx] at hk
    cases hk
  exact {
    pos := h.pos
    current := h.current
    beyond := fun k hk => by
      have hlc : k ≠ l := fun he => absurd hl (Nat.not_lt.2 (he ▸ hk))
      rw [Chart.phi, edit_block]
      exact (if_neg hlc).trans (h.beyond k hk)
    phi := fun k y => by
      rw [(phi_block c x l k t).1, hhome, List.mem_append, h.phi]
      by_cases hy : y = x
      · subst hy
        by_cases hk : k = l
        · simp [hk]
        · simp [hk, hx, Ne.symm hk]
      · rw [if_neg hy]
        split <;> simp [hy]
    nodup := fun k => by
      rw [(phi_block c x l k t).1]
      split
      · exact List.nodup_append.2 ⟨h.nodup k, List.nodup_singleton x, fun a ha b hb hab =>
          hxp k (List.mem_singleton.1 hb ▸ hab ▸ ha)⟩
      · rw [List.append_nil]
        exact h.nodup k
    out := fun k i a y ha hy => by
      rw [(phi_block c x l k t).2.1] at ha
      have hyh := h.out k i a y ha hy
      rw [hhome, if_neg (hne y _ hyh), hyh]
    placed := fun k i y hy => by
      rw [(phi_block c x l k t).2.1]
      rw [hhome] at hy
      split at hy
      · cases hy
      · exact h.placed k i y hy
    nonneg := fun y hy => by
      rw [hhome] at hy
      split at hy
      · rename_i hyx
        exact hyx ▸ h0
      · exact h.nonneg y hy
    typed := fun y hy => by
      rw [htype] at hy
      rw [hhome]
      split
      · exact nofun
      · rename_i hyx
        rw [if_neg hyx] at hy
        exact h.typed y hy
    scalar := fun k y hy => by
      rw [hhome] at hy
      rw [htype]
      split at hy
      · rename_i hyx
        rwa [if_pos hyx]
      · rename_i hyx
        rw [if_neg hyx]
        exact h.scalar k y hy
    joint := fun y hy => by
      obtain ⟨k, hk⟩ := h.joint y hy
      exact ⟨k, by rw [hhome, if_neg (hne y _ hk), hk]⟩
    source := h.source
    lines := fun k a ha => by
      rw [(phi_block c x l k t).2.1] at ha
      exact (h.lines k a ha).mono hty
    exits := fun k e he => by
      rw [(phi_block c x l k t).2.2] at he
      exact (h.exits k e he).mono hty le_rfl
    args := fun i hi => by
      rw [(phi_block c x l _ t).2.1]
      exact h.args i hi
    only := fun k i y n ha => by
      rw [(phi_block c x l k t).2.1] at ha
      exact h.only k i y n ha }

theorem Consistent.join (h : c.Consistent) {id : Ref} {source : BlockId} (hid : c.home id = some ⟨l, none⟩)
    (hs : 0 ≤ source ∧ source < c.size) : (c.join id source x).Consistent := by
  have hin : ∀ y, (c.join id source x).incoming y =
      if y = id then c.incoming id ++ [⟨source, x⟩] else c.incoming y :=
    fun y => Function.update_apply _ _ _ _
  refine { h with joint := fun y hy => ?_, source := fun y e he => ?_ }
  · rw [hin] at hy
    split at hy
    · rename_i hyi
      exact ⟨l, hyi ▸ hid⟩
    · exact h.joint y hy
  · rw [hin] at he
    split at he
    · rcases List.mem_append.1 he with he | he
      · exact h.source id e he
      · rw [List.mem_singleton.1 he]
        exact hs
    · exact h.source y e he

end Chart

end Codesmith.Gen
