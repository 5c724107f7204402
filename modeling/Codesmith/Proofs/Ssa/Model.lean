import Codesmith.Proofs.Chart.Edit

/-!
# Charts of functions in single assignment form

`Func.Models` says that a table of expressions describes a chart. Expressions have the numbers that the
values of the chart have; stores and terminators are numbered too but are no values.
-/

namespace Codesmith.Ssa

open Gen (Act Chart ChartBlock Home)

namespace Expr

/-- The line that an expression stands for, by its number, its type and those of its operands. -/
def act (ty : Ref → Ty) (id : Ref) (t : Ty) : Expr → Option Act
  | arg n => some (.arg id n.toNat)
  | imm x => some (.compute id (.imm x))
  | binary op l r => some (.compute id (.binary op t.kind l r))
  | unary op x => some (.compute id (.unary op t.kind x))
  | compare c l r => some (.compute id (.compare c (ty l).kind l r))
  | convert x => some (.compute id (.convert t.kind (ty x).kind x))
  | ptrAdd p i scale => some (.compute id (.ptrAdd scale p i))
  | ptrDiff l r scale => some (.compute id (.ptrDiff scale l r))
  | load p => some (.compute id (.load t.kind p))
  | store p x => some (.store (ty x).kind p x)
  | _ => none

variable {ty ty' : Ref → Ty} {id : Ref} {t : Ty} {x : Expr} {a : Act}

theorem reads_of_act (h : x.act ty id t = some a) : a.reads = x.operands := by
  cases x <;> simp only [act, Option.some.injEq, reduceCtorEq] at h <;> subst h <;> rfl

theorem out_of_act (h : x.act ty id t = some a) : a.out? = none ∨ a.out? = some id := by
  cases x <;> simp only [act, Option.some.injEq, reduceCtorEq] at h <;> subst h <;>
    first | exact .inr rfl | exact .inl rfl

theorem act_congr (h : ∀ y ∈ x.operands, ty y = ty' y) : x.act ty id t = x.act ty' id t := by
  cases x <;> simp only [operands, List.mem_cons, List.not_mem_nil, or_false, forall_eq_or_imp,
    forall_eq] at h <;> simp only [act, h]

theorem isPhi_of_act (h : x.act ty id t = some a) : x.isPhi = false := by
  cases x <;> first | rfl | cases h

theorem act_operation {op : Gen.Operation} (h : op.Fits ty) :
    op.expr.act ty id op.ty = some (.compute id op.compute) := by
  cases op with
  | compare c t l r =>
    obtain ⟨-, -, hl, -⟩ := h
    simp only [Gen.Operation.expr, act, hl, Gen.Operation.compute]
  | convert target source x =>
    obtain ⟨-, -, -, hx⟩ := h
    simp only [Gen.Operation.expr, act, hx, Gen.Operation.compute, Gen.Operation.ty]
  | _ => rfl

end Expr

namespace Func

variable {f' : Func} {id : Nat} {a : Act} {b : Block} {cb : ChartBlock} {l : Label} {x : Expr} {t : Ty}
  {name : String} {sig : Signature}

/-- The line that the expression with a number stands for. -/
def act? (f : Func) (id : Nat) : Option Act :=
  f.entries[id]?.bind fun e => e.expr.act f.tyOf id e.ty

def expr? (f : Func) (id : Nat) : Option Expr :=
  f.entries[id]?.map Entry.expr

theorem phi?_eq (f : Func) (x : Ref) : f.phi? x =
    (f.entryOf? x).bind fun e => if e.expr.isPhi then some e.expr.branches else none := by
  rw [phi?]
  cases f.entryOf? x with
  | none => rfl
  | some e =>
    obtain ⟨x, t, position, l⟩ := e
    cases x <;> rfl

def branchOf (e : EdgeValue) : PhiBranch :=
  ⟨e.source, e.ref⟩

/-- A block of expressions shows a block of a chart. -/
structure Shows (f : Func) (b : Block) (cb : ChartBlock) : Prop where
  phis : (b.phis.map fun (n : Nat) => (n : Ref)) = cb.phis
  code : b.code.map f.act? = cb.code.map some
  exit : b.term.map f.expr? = cb.exit.map fun e => some e.expr

/-- The function describes the chart and can be continued. -/
structure Models (f : Func) (c : Chart) : Prop where
  error : f.error = none
  sig : f.sig = c.sig
  args : f.args = List.range c.sig.params.length
  size : f.blocks.size = c.size
  block : ∀ (l : Label) (b : Block), f.blocks[l]? = some b → f.Shows b (c.block l)
  types : ∀ x, f.tyOf x = c.ty x
  home : ∀ x p, c.home x = some p → ∃ e, f.entryOf? x = some e ∧ e.block = p.block
  phi : ∀ x l, c.home x = some ⟨l, none⟩ → f.phi? x = some ((c.incoming x).map branchOf)
  only : ∀ x bs, f.phi? x = some bs → ∃ l, c.home x = some ⟨l, none⟩

variable {f : Func} {c : Chart}

theorem Shows.exit_of_term (hs : f.Shows b cb) {t : Nat} (ht : b.term = some t) :
    ∃ e entry, cb.exit = some e ∧ f.entries[t]? = some entry ∧ entry.expr = e.expr := by
  have hexit := hs.exit
  rw [ht] at hexit
  obtain ⟨e, he, hte⟩ := Option.map_eq_some_iff.1 hexit.symm
  obtain ⟨entry, hentry, hexpr⟩ := Option.map_eq_some_iff.1 hte.symm
  exact ⟨e, entry, he, hentry, hexpr⟩

/-! ## Growing tables -/

/-- Whatever is no phi stays in the table, and types stay. -/
structure Extends (f f' : Func) : Prop where
  entries : ∀ (id : Nat) e, f.entries[id]? = some e → e.expr.isPhi = false → f'.entries[id]? = some e
  types : ∀ x, f.tyOf x ≠ .void → f'.tyOf x = f.tyOf x

theorem Extends.act? (h : f.Extends f') (ha : f.act? id = some a) (hfits : a.Fits f.tyOf) :
    f'.act? id = some a := by
  obtain ⟨e, he, hact⟩ := Option.bind_eq_some_iff.1 ha
  rw [Func.act?, h.entries id e he (Expr.isPhi_of_act hact)]
  refine (Expr.act_congr fun y hy => h.types y ?_).trans hact
  exact hfits.reads y (Expr.reads_of_act hact ▸ hy)

theorem Extends.shows (h : f.Extends f') (hs : f.Shows b cb) (hfits : ∀ a ∈ cb.code, a.Fits f.tyOf) :
    f'.Shows b cb where
  phis := hs.phis
  code := by
    rw [← hs.code]
    refine List.map_congr_left fun id hid => ?_
    obtain ⟨a, ha, hact⟩ := List.mem_map.1 (hs.code ▸ List.mem_map_of_mem hid)
    exact (h.act? hact.symm (hfits a ha)).trans hact
  exit := by
    rw [← hs.exit]
    cases ht : b.term with
    | none => rfl
    | some t =>
      obtain ⟨e, entry, -, hentry, hexpr⟩ := hs.exit_of_term ht
      have hphi : entry.expr.isPhi = false := by rw [hexpr]; cases e <;> rfl
      rw [Option.map_some, Option.map_some, Func.expr?, h.entries t entry hentry hphi, Func.expr?, hentry]

/-- The table with one more expression, which is in no block yet. -/
def grow (f : Func) (l : Label) (x : Expr) (t : Ty) (position : Option Position) : Func :=
  { f with entries := f.entries.push ⟨x, t, position, l⟩ }

section Grow

variable (l : Label) (x : Expr) (t : Ty) (position : Option Position)

theorem entryOf_grow (y : Ref) : (f.grow l x t position).entryOf? y =
    if y = f.entries.size then some ⟨x, t, position, l⟩ else f.entryOf? y :=
  fetch?_push _ _ _

theorem grow_tyOf (y : Ref) :
    (f.grow l x t position).tyOf y = if y = f.entries.size then t else f.tyOf y := by
  rw [tyOf, entryOf_grow]
  split <;> rfl

theorem grow_phi? (y : Ref) : (f.grow l x t position).phi? y =
    if y = f.entries.size then if x.isPhi then some x.branches else none else f.phi? y := by
  rw [phi?_eq, phi?_eq, entryOf_grow]
  split <;> rfl

theorem tyOf_size (f : Func) : f.tyOf f.entries.size = .void := by
  rw [tyOf, entryOf?, fetch?_natCast, Array.getElem?_eq_none le_rfl]
  rfl

theorem extends_grow : f.Extends (f.grow l x t position) where
  entries id e he _ := by
    rw [grow, Array.getElem?_push, if_neg (Nat.ne_of_lt (Array.getElem?_eq_some_iff.1 he).1), he]
  types y hy := by
    rw [grow_tyOf, if_neg]
    rintro rfl
    exact hy f.tyOf_size

theorem grow_getElem? : (f.grow l x t position).entries[f.entries.size]? = some ⟨x, t, position, l⟩ := by
  rw [grow, Array.getElem?_push, if_pos rfl]

end Grow

section

variable (h : f.Models c)
include h

theorem Models.lines_fit (hc : c.Consistent) (l : Label) : ∀ a ∈ (c.block l).code, a.Fits f.tyOf := by
  rw [funext h.types]
  exact hc.lines l

theorem Models.fresh : c.home (f.entries.size : Int) = none := by
  by_contra hne
  obtain ⟨p, hp⟩ := Option.ne_none_iff_exists'.1 hne
  obtain ⟨e, he, -⟩ := h.home _ p hp
  rw [Func.entryOf?, fetch?_natCast, Array.getElem?_eq_none le_rfl] at he
  cases he

/-- One more expression in the table changes the chart by at most one value. -/
theorem Models.grow (hc : c.Consistent) (position : Option Position) (home : Option Home)
    (hhome : ∀ p, home = some p → p.block = l) (hphi : (∃ k, home = some ⟨k, none⟩) ↔ x.isPhi = true)
    (hbranches : x.branches = []) : (f.grow l x t position).Models { c with
        home := Function.update c.home f.entries.size home
        ty := Function.update c.ty f.entries.size t } where
  error := h.error
  sig := h.sig
  args := h.args
  size := h.size
  block k b hb := (extends_grow l x t position).shows (h.block k b hb) (h.lines_fit hc k)
  types y := by
    dsimp only
    rw [grow_tyOf, Function.update_apply, h.types]
  home y p hy := by
    dsimp only at hy
    rw [entryOf_grow]
    rw [Function.update_apply] at hy
    split at hy
    · rename_i hys
      rw [if_pos hys]
      exact ⟨_, rfl, (hhome p hy).symm⟩
    · rename_i hys
      rw [if_neg hys]
      exact h.home y p hy
  phi y k hy := by
    dsimp only at hy ⊢
    rw [grow_phi?]
    rw [Function.update_apply] at hy
    split at hy
    · rename_i hys
      rw [if_pos hys, if_pos (hphi.1 ⟨k, hy⟩), hbranches, hys]
      have hnil : c.incoming (f.entries.size : Int) = [] := by
        by_contra hne
        obtain ⟨k, hk⟩ := hc.joint _ hne
        rw [h.fresh] at hk
        cases hk
      rw [hnil]
      rfl
    · rename_i hys
      rw [if_neg hys]
      exact h.phi y k hy
  only y bs hy := by
    dsimp only
    rw [grow_phi?] at hy
    rw [Function.update_apply]
    split at hy
    · rename_i hys
      rw [if_pos hys]
      exact hphi.2 (Option.ite_none_right_eq_some.1 hy).1
    · rename_i hys
      rw [if_neg hys]
      exact h.only y bs hy

theorem Models.edit (l : Label) {u : Block → Block} {u' : ChartBlock → ChartBlock}
    (hu : ∀ b cb, f.Shows b cb → f.Shows (u b) (u' cb)) :
    { f with blocks := f.blocks.modify l u }.Models (c.edit l u') := by
  refine { h with size := by rw [Array.size_modify]; exact h.size, block := fun k b hb => ?_ }
  rw [Array.getElem?_modify] at hb
  rw [Chart.edit_block]
  split at hb
  · rename_i hlk
    subst hlk
    obtain ⟨b', hb', rfl⟩ := Option.map_eq_some_iff.1 hb
    rw [if_pos rfl]
    obtain ⟨h1, h2, h3⟩ := hu b' _ (h.block l b' hb')
    exact ⟨h1, h2, h3⟩
  · rename_i hlk
    rw [if_neg (Ne.symm hlk)]
    obtain ⟨h1, h2, h3⟩ := h.block k b hb
    exact ⟨h1, h2, h3⟩

end

/-! ## Adding expressions -/

/-- The function with one more expression in a block. -/
def added (f : Func) (l : Label) (x : Expr) (t : Ty) (position : Option Position) : Func :=
  { f.grow l x t position with
    blocks := f.blocks.modify l fun b => Block.push b f.entries.size x }

theorem add_eq (hb : f.blocks[l]? = some b) (hok : b.term = none ∨ x.isPhi = true) (t : Ty)
    (position : Option Position) :
    f.add l x t position = ((f.entries.size : Int), f.added l x t position) := by
  have hno : (b.term.isSome && !x.isPhi) = false := by
    rcases hok with h | h <;> simp [h]
  simp only [add, fetch?_natCast, hb, hno, Bool.false_eq_true, if_false]
  rfl

theorem Models.exists_block (h : f.Models c) (hl : l < c.size) :
    ∃ b, f.blocks[l]? = some b ∧ f.Shows b (c.block l) := by
  have hb := Array.getElem?_eq_getElem (h.size.symm ▸ hl)
  exact ⟨_, hb, h.block l _ hb⟩

theorem Shows.term_eq_none_iff (h : f.Shows b cb) : b.term = none ↔ cb.exit = none := by
  rw [← Option.map_eq_none_iff, h.exit, Option.map_eq_none_iff]

/-- The new expression in the table is the line that is wanted. -/
theorem Models.act?_grow (h : f.Models c) (hact : x.act c.ty f.entries.size t = some a) (hfits : a.Fits c.ty)
    (l : Label) (position : Option Position) : (f.grow l x t position).act? f.entries.size = some a := by
  rw [act?, grow_getElem?]
  refine (Expr.act_congr fun y hy => ?_).trans hact
  have hy := hfits.reads y (Expr.reads_of_act hact ▸ hy)
  rw [← h.types] at hy
  rw [(extends_grow l x t position).types y hy, h.types]

theorem Shows.push_line (h : f.Shows b cb) (hphi : x.isPhi = false) (hterm : x.isTerminator = false)
    (hact : f.act? id = some a) : f.Shows (Block.push b id x) { cb with code := cb.code ++ [a] } := by
  rw [Block.push, if_neg (by simp [hphi]), if_neg (by simp [hterm])]
  refine ⟨h.phis, ?_, h.exit⟩
  simp [h.code, hact]

section

variable (h : f.Models c) (hc : c.Consistent)
include h hc

theorem Models.value_added {op : Gen.Operation} (hop : op.Fits c.ty) (position : Option Position) :
    (f.added c.current op.expr op.ty position).Models (c.value f.entries.size op) := by
  have hphi : op.expr.isPhi = false := by cases op <;> rfl
  have hterm : op.expr.isTerminator = false := by cases op <;> rfl
  have hgrow := h.grow hc (x := op.expr) (t := op.ty) position
    (some ⟨c.current, some (c.length c.current)⟩) (fun p hp => by cases hp; rfl)
    (iff_of_false (by simp) (by simp [hphi])) (by cases op <;> rfl)
  refine hgrow.edit c.current fun b cb hs => hs.push_line hphi hterm ?_
  exact h.act?_grow (Expr.act_operation hop) (hop.act _) _ _

theorem Models.grow_void (hphi : x.isPhi = false) (hbranches : x.branches = []) (position : Option Position) :
    (f.grow l x .void position).Models c := by
  have hgrow := h.grow hc (x := x) (t := .void) (l := l) position none nofun
    (iff_of_false (by simp) (by simp [hphi])) hbranches
  have hhome : Function.update c.home f.entries.size none = c.home := by
    rw [← h.fresh, Function.update_eq_self]
  have hty : Function.update c.ty f.entries.size .void = c.ty := by
    rw [← hc.ty_eq_void h.fresh, Function.update_eq_self]
  rwa [hhome, hty] at hgrow

theorem Models.store_added {p x : Ref} (hp : (c.ty p).isPtr = true) (hx : c.ty x = t) (ht : t.kind ≠ .invalid)
    (position : Option Position) :
    (f.added c.current (.store p x) .void position).Models (c.store t p x) := by
  refine (h.grow_void hc rfl rfl position).edit c.current fun b cb hs => hs.push_line rfl rfl ?_
  refine h.act?_grow (a := .store t.kind p x) (by rw [Expr.act, hx]) ⟨fun y hy => ?_, nofun⟩ _ _
  rcases List.mem_cons.1 hy with rfl | hy
  · exact Ty.ne_void_of_isPtr hp
  · rw [List.mem_singleton.1 hy, hx]
    exact Ty.ne_void_of_kind ht

theorem Models.exit_added (e : Gen.Exit) (position : Option Position) :
    (f.added c.current e.expr .void position).Models (c.terminate e) := by
  have hphi : e.expr.isPhi = false := by cases e <;> rfl
  have hterm : e.expr.isTerminator = true := by cases e <;> rfl
  refine (h.grow_void hc hphi (by cases e <;> rfl) position).edit c.current fun b cb hs => ?_
  rw [Block.push, if_neg (by simp [hphi]), if_pos hterm]
  refine ⟨hs.phis, hs.code, ?_⟩
  simp only [Option.map_some, expr?, grow_getElem?]

theorem Models.phi_added (l : Label) (t : Ty) (position : Option Position) :
    (f.added l (.phi []) t position).Models (c.phi f.entries.size l t) := by
  have hgrow := h.grow hc (x := .phi []) (t := t) position (some ⟨l, none⟩)
    (fun p hp => by cases hp; rfl) (iff_of_true ⟨l, rfl⟩ rfl) rfl
  refine hgrow.edit l fun b cb hs => ?_
  rw [Block.push, if_pos (show (Expr.phi []).isPhi = true from rfl)]
  refine ⟨?_, hs.code, hs.exit⟩
  rw [List.map_append, hs.phis]
  rfl

end

theorem entryOf_setExpr (n : Nat) (x : Expr) (y : Ref) : (f.setExpr n x).entryOf? y =
    if y = n then (f.entryOf? y).map fun e => { e with expr := x } else f.entryOf? y :=
  fetch?_modify _ _ _ _

theorem setExpr_tyOf (n : Nat) (x : Expr) (y : Ref) : (f.setExpr n x).tyOf y = f.tyOf y := by
  rw [tyOf, entryOf_setExpr, tyOf]
  split
  · rw [Option.map_map]
    rfl
  · rfl

theorem phi?_eq_some_iff {x : Ref} {bs : List PhiBranch} :
    f.phi? x = some bs ↔ ∃ n : Nat, x = n ∧ ∃ e, f.entries[n]? = some e ∧ e.expr = .phi bs := by
  rw [phi?_eq, Option.bind_eq_some_iff]
  constructor
  · rintro ⟨e, he, hbs⟩
    obtain ⟨n, rfl, hn⟩ := fetch?_eq_some_iff.1 he
    refine ⟨n, rfl, e, hn, ?_⟩
    obtain ⟨hphi, hbs⟩ := Option.ite_none_right_eq_some.1 hbs
    cases hx : e.expr with
    | phi cs => rw [hx] at hbs; rw [← Option.some.inj hbs]; rfl
    | _ => rw [hx] at hphi; cases hphi
  · rintro ⟨n, rfl, e, he, hx⟩
    exact ⟨e, he, by rw [hx]; rfl⟩

theorem Models.addIncoming (h : f.Models c) (hc : c.Consistent) {id : Ref} (hid : c.home id = some ⟨l, none⟩)
    (source : BlockId) (x : Ref) : (f.addIncoming id source x).Models (c.join id source x) := by
  have hphi := h.phi id l hid
  obtain ⟨n, rfl, e, he, hexpr⟩ := phi?_eq_some_iff.1 hphi
  rw [Func.addIncoming, hphi]
  dsimp only
  rw [Int.toNat_natCast]
  have hext : f.Extends (f.setExpr n (.phi ((c.incoming n).map branchOf ++ [⟨source, x⟩]))) := by
    refine ⟨fun k e' he' hno => ?_, fun y _ => setExpr_tyOf _ _ _⟩
    rw [setExpr, Array.getElem?_modify, if_neg, he']
    rintro rfl
    cases he.symm.trans he'
    rw [hexpr] at hno
    cases hno
  have hget : ∀ y, (f.setExpr n (.phi ((c.incoming n).map branchOf ++ [⟨source, x⟩]))).phi? y =
      if y = n then some ((c.incoming n).map branchOf ++ [⟨source, x⟩]) else f.phi? y := by
    intro y
    rw [phi?_eq, phi?_eq, entryOf_setExpr]
    split
    · rename_i hy
      rw [hy, entryOf?, fetch?_natCast, he]
      rfl
    · rfl
  refine { h with
    block := fun k b hb => hext.shows (h.block k b hb) (h.lines_fit hc k)
    types := fun y => (setExpr_tyOf _ _ _).trans (h.types y)
    home := fun y p hy => ?_
    phi := fun y k hy => ?_
    only := fun y bs hy => ?_ }
  · obtain ⟨e', he', hb⟩ := h.home y p hy
    rw [entryOf_setExpr]
    split
    · rw [he']
      exact ⟨_, rfl, hb⟩
    · exact ⟨e', he', hb⟩
  · simp only [Chart.join, hget, Function.update_apply]
    split
    · rw [List.map_append]
      rfl
    · exact h.phi y k hy
  · rw [hget] at hy
    split at hy
    · rename_i hyn
      exact ⟨l, hyn ▸ hid⟩
    · exact h.only y bs hy

theorem Models.newBlock (h : f.Models c) (hc : c.Consistent) (name : String) :
    (f.newBlock name).1 = c.size ∧ (f.newBlock name).2.Models c.newBlock := by
  refine ⟨h.size, { h with size := ?_, block := fun l b hb => ?_ }⟩
  · simpa [Func.newBlock, Chart.newBlock] using h.size
  · simp only [Func.newBlock, Array.getElem?_push] at hb
    split at hb
    · rename_i hl
      cases hb
      have : c.newBlock.block l = {} := hc.beyond l (by rw [hl, h.size])
      rw [this]
      exact ⟨rfl, rfl, rfl⟩
    · obtain ⟨h1, h2, h3⟩ := h.block l b hb
      exact ⟨h1, h2, h3⟩

/-! ## The beginning -/

/-- The function whose arguments so far have the given types. -/
def begun (name : String) (sig : Signature) (ts : List Ty) : Func where
  name := name
  sig := sig
  args := List.range ts.length
  entries := (ts.zipIdx.map fun p => ⟨.arg p.2, p.1, none, Graph.entry⟩).toArray
  blocks := #[{ name := "entry", code := List.range ts.length }]

theorem addArgs_begun (ts us : List Ty) :
    (begun name sig ts).addArgs ts.length us = begun name sig (ts ++ us) := by
  induction us generalizing ts with
  | nil => rw [addArgs, List.append_nil]
  | cons t us ih =>
    have hstep : (begun name sig ts).addArgs ts.length (t :: us) =
        (begun name sig (ts ++ [t])).addArgs (ts ++ [t]).length us := by
      rw [addArgs]
      simp [add, begun, Graph.entry, fetch?, Block.push, Expr.isPhi, Expr.isTerminator,
        List.range_succ, List.zipIdx_append]
    rw [hstep, ih, List.append_assoc]
    rfl

theorem create_eq (name : String) (sig : Signature) : create name sig = begun name sig sig.params :=
  addArgs_begun [] sig.params

theorem entryOf_begun {ts : List Ty} (x : Ref) : (begun name sig ts).entryOf? x =
      (fetch? ts.toArray x).map fun t => ⟨.arg x, t, none, Graph.entry⟩ := by
  cases x with
  | negSucc k => rfl
  | ofNat k =>
    simp only [Func.entryOf?, begun, Int.ofNat_eq_natCast, fetch?_natCast, List.getElem?_toArray,
      List.getElem?_map, List.getElem?_zipIdx, Option.map_map, Nat.zero_add]
    rfl

theorem models_begun (name : String) (sig : Signature) : (begun name sig sig.params).Models (.ofSig sig) where
  error := rfl
  sig := rfl
  args := rfl
  size := rfl
  block l b hb := by
    cases l with
    | zero =>
      obtain rfl : _ = b := Option.some.inj hb
      refine ⟨rfl, ?_, rfl⟩
      simp only [Chart.ofSig, Graph.entry, if_true, List.map_map]
      refine List.map_congr_left fun i hi => ?_
      have hi := List.mem_range.1 hi
      simp only [act?, begun, List.getElem?_toArray, List.getElem?_map, List.getElem?_zipIdx,
        List.getElem?_eq_getElem hi, Nat.zero_add, Option.map_some, Option.bind_some]
      rfl
    | succ l => cases hb
  types x := by
    rw [tyOf, entryOf_begun, Option.map_map, Chart.ofSig]
    simp [Function.comp_def]
  home x p hx := by
    obtain ⟨i, hi, rfl, rfl⟩ := Chart.ofSig_home.1 hx
    rw [entryOf_begun, fetch?_natCast, List.getElem?_toArray, List.getElem?_eq_getElem hi]
    exact ⟨_, rfl, rfl⟩
  phi x l hx := by
    obtain ⟨i, -, -, hp⟩ := Chart.ofSig_home.1 hx
    cases hp
  only x bs hx := by
    rw [phi?_eq, entryOf_begun] at hx
    cases hf : fetch? sig.params.toArray x with
    | none => rw [hf] at hx; cases hx
    | some t => rw [hf] at hx; cases hx

end Func

end Codesmith.Ssa
