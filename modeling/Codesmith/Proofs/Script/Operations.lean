import Codesmith.Script.Exec
import Codesmith.Proofs.Describe.Scopes
import Codesmith.Proofs.Describe.Settled
import Codesmith.Proofs.Script.Reading

/-!
# Operations as they are read

An edit of a sketch that has the variables of a scope, and that is accepted, describes the statements that
the reading has for it. It makes variables of the types that the reading tells, and yields the value that
the reading yields. `Computes` says this of an edit; it holds of every operation of a script.
-/

namespace Codesmith.Script

open Gen (Sheet)
open Direct (Node Source madeAll assignedAll)
open Describe

variable {α β : Type} {sc sc' : Scope} {s s' : Sketch} {A A' : Sheet} {v w : Value} {position : Position}
  {nodes nodes' : List Node} {made made' : List Ty}
variable {ty : Ty} {a : α}

/-! ## Scopes and sketches -/

namespace Scope

/-- The value is a variable of the function. -/
def Has (sc : Scope) (v : Value) : Prop :=
  ∃ t, sc.types[v.cell]? = some t ∧ v = ⟨sc.id, t, some v.cell⟩

/-- The sketch has the variables that were made. -/
structure Fits (sc : Scope) (s : Sketch) : Prop where
  id : s.id = sc.id
  sig : s.sig = sc.sig
  types : s.types = sc.types

theorem Has.grow (h : sc.Has v) (types : List Ty) : (sc.grow types).Has v := by
  obtain ⟨t, ht, hv⟩ := h
  exact ⟨t, List.getElem?_append_left (List.getElem?_eq_some_iff.1 ht).1 ▸ ht, hv⟩

theorem has_newest (h : sc.types ≠ []) : sc.Has sc.newest := by
  refine ⟨sc.types.getLastD .void, ?_, rfl⟩
  show sc.types[sc.types.length - 1]? = _
  rw [← List.getLast?_eq_getElem?, List.getLast?_eq_some_getLast h, List.getLastD_eq_getLast?,
    List.getLast?_eq_some_getLast h, Option.getD_some]

theorem newest_grow (sc : Scope) (t : Ty) : (sc.grow [t]).newest = ⟨sc.id, t, some sc.size⟩ := by
  simp [newest, grow, size]

theorem has_newest_grow (sc : Scope) (t : Ty) : (sc.grow [t]).Has (sc.grow [t]).newest :=
  has_newest (by simp [grow])

theorem grow_nil (sc : Scope) : sc.grow [] = sc := by
  rw [grow, List.append_nil]

theorem grow_grow (sc : Scope) (types types' : List Ty) :
    (sc.grow types).grow types' = sc.grow (types ++ types') := by
  rw [grow, grow, grow, List.append_assoc]

theorem Fits.size (h : sc.Fits s) : s.vars.size = sc.size := by
  rw [Scope.size, ← h.types, Sketch.types, List.length_map, Array.length_toList]

theorem Fits.refers (h : sc.Fits s) (hv : sc.Has v) : Refers s v := by
  obtain ⟨t, ht, hv⟩ := hv
  rw [← h.types, Sketch.types, List.getElem?_map, Array.getElem?_toList] at ht
  obtain ⟨x, hx, hty⟩ := Option.map_eq_some_iff.1 ht
  exact ⟨x, hx, by rw [h.id, hty]; exact hv⟩

theorem Fits.settles (h : sc.Fits s) (hs : s.Settles s') : sc.Fits s' :=
  ⟨hs.id.trans h.id, hs.sig.trans h.sig, hs.types.trans h.types⟩

/-- A sketch that comes of one that fits has the same variables first. -/
theorem Fits.evolves {V : Nat → Prop} (h : sc.Fits s) (hev : Evolves V s s') :
    ∃ types, (sc.grow types).Fits s' ∧ types.length = s'.vars.size - s.vars.size := by
  have hle : s.types.length ≤ s'.types.length := by
    simp only [Sketch.types, List.length_map, Array.length_toList]
    by_contra hlt
    obtain ⟨x', hx', -⟩ := hev.vars _ _ (Array.getElem?_eq_getElem (not_le.1 hlt))
    exact absurd (Array.getElem?_eq_some_iff.1 hx').1 (lt_irrefl _)
  have htake : s'.types.take s.types.length = s.types := by
    refine List.ext_getElem? fun i => ?_
    rw [List.getElem?_take]
    split
    · rename_i hi
      simp only [Sketch.types, List.length_map, Array.length_toList] at hi
      obtain ⟨x', hx', hty, -⟩ := hev.vars _ _ (Array.getElem?_eq_getElem hi)
      simp [Sketch.types, hx', hty, Array.getElem?_eq_getElem hi]
    · rename_i hi
      exact (List.getElem?_eq_none (not_lt.1 hi)).symm
  refine ⟨s'.types.drop s.types.length, ⟨hev.id.trans h.id, hev.sig.trans h.sig, ?_⟩, ?_⟩
  · show s'.types = sc.types ++ _
    calc s'.types = s'.types.take s.types.length ++ s'.types.drop s.types.length :=
          (List.take_append_drop _ _).symm
      _ = sc.types ++ s'.types.drop s.types.length := by rw [htake, h.types]
  · simp [Sketch.types]

end Scope

theorem makes_fits {out : Nat} (h : Makes nodes s A s' A' w ty out) (hs : sc.Fits s)
    (hout : out = s.vars.size) : w = (sc.grow [ty]).newest ∧ (sc.grow [ty]).Fits s' := by
  subst hout
  obtain ⟨types, hfits, hlen⟩ := hs.evolves h.progress.evolves
  rw [h.size, Nat.add_sub_cancel_left] at hlen
  obtain ⟨t, rfl⟩ := List.length_eq_one_iff.1 hlen
  have hw : w = ⟨sc.id, ty, some sc.size⟩ := by rw [h.value, hs.id, hs.size]
  obtain ⟨x, hx, hwx⟩ := h.refers
  have hty : x.ty = ty := by
    rw [hw] at hwx
    exact (Value.mk.inj hwx).2.1.symm
  have ht : (sc.grow [t]).types[sc.size]? = some ty := by
    rw [← hfits.types, Sketch.types, List.getElem?_map, Array.getElem?_toList,
      show sc.size = w.cell by rw [hw]; rfl, hx, Option.map_some, hty]
  obtain rfl : t = ty := by simpa [Scope.grow, Scope.size] using ht
  exact ⟨hw.trans (sc.newest_grow t).symm, hfits⟩

/-- Statements that make no variable. -/
theorem draws_fits (h : Draws nodes s A s' A') (hs : sc.Fits s) (hmade : madeAll nodes = []) :
    sc.Fits s' := by
  obtain ⟨types, hfits, hlen⟩ := hs.evolves h.progress.evolves
  have hsize : s'.vars.size ≤ s.vars.size := by
    by_contra hlt
    have := h.made s.vars.size le_rfl (not_le.1 hlt)
    rw [hmade] at this
    exact List.not_mem_nil this
  rw [Nat.sub_eq_zero_of_le hsize, List.length_eq_zero_iff] at hlen
  rw [hlen, Scope.grow_nil] at hfits
  exact hfits

/-! ## Edits -/

/-- An edit that describes statements which make variables of these types, and that yields a value. -/
def Computes (e : Edit α) (sc : Scope) (nodes : List Node) (made : List Ty) (out : α) : Prop :=
  ∀ s A a s', sc.Fits s → Drawn s A → Ready s A (fun _ => True) → e s = .ok (a, s') → s'.error = none →
    a = out ∧ (sc.grow made).Fits s' ∧ ∃ A', Draws nodes s A s' A'

theorem Computes.bind {x : Edit α} {f : α → Edit β} {b : β} (hx : Computes x sc nodes made a)
    (hf : Computes (f a) (sc.grow made) nodes' made' b) [∀ a, Tame (f a)] :
    Computes (x >>= f) sc (nodes ++ nodes') (made ++ made') b := by
  intro s A c s' hs hd hr h herr
  obtain ⟨a', t, ha, hb⟩ := bind_ok h
  obtain ⟨rfl, ht, B, hB⟩ := hx s A a' t hs hd hr ha (Tame.error_eq_none hb herr)
  obtain ⟨rfl, hs', A', hA'⟩ := hf t B c s' ht hB.progress.drawn hB.progress.ready hb herr
  exact ⟨rfl, sc.grow_grow made made' ▸ hs', A', hB.trans hA' hd⟩

theorem computes_one {e : Edit Value} (h : ∀ s A w s', sc.Fits s → Drawn s A →
      AllReady s A → e s = .ok (w, s') → s'.error = none →
        ∃ A', Makes nodes s A s' A' w ty s.vars.size) : Computes e sc nodes [ty] (sc.grow [ty]).newest := by
  intro s A w s' hs hd hr he herr
  obtain ⟨A', hA'⟩ := h s A w s' hs hd hr he herr
  obtain ⟨hw, hs'⟩ := makes_fits hA' hs rfl
  exact ⟨hw, hs', A', hA'.toDraws⟩

theorem computes_none {e : Edit Unit} (h : ∀ s A u s', sc.Fits s → Drawn s A →
      AllReady s A → e s = .ok (u, s') → s'.error = none → ∃ A', Draws nodes s A s' A')
    (hmade : madeAll nodes = []) : Computes e sc nodes [] () := by
  intro s A u s' hs hd hr he herr
  obtain ⟨A', hA'⟩ := h s A u s' hs hd hr he herr
  exact ⟨rfl, sc.grow_nil.symm ▸ draws_fits hA' hs hmade, A', hA'⟩

theorem computes_silent {e : Edit α}
    (h : ∀ s b s', sc.Fits s → e s = .ok (b, s') → s'.error = none → b = a ∧ s' = s) :
    Computes e sc [] [] a := by
  intro s A b s' hs hd hr he herr
  obtain ⟨rfl, rfl⟩ := h s b s' hs he herr
  exact ⟨rfl, sc.grow_nil.symm ▸ hs, A, draws_nil hd hr⟩

/-! ## Operations -/

/-- The values of an operand are variables of the function. -/
def Scope.HasOperand (sc : Scope) (x : Operand) : Prop :=
  ∀ v, x = .value (some v) → sc.Has v

theorem Scope.Fits.refersOperand {x : Operand} (h : sc.Fits s) (hx : sc.HasOperand x) : x.Refers s :=
  fun v hv => h.refers (hx v hv)

theorem hasOperand_const (sc : Scope) (x : Host.HostValue) : sc.HasOperand (.const x) :=
  fun _ => nofun

theorem stride_of_size {t : Ty} {n : Int} (h : t.size = .ok n) : stride t = n := by
  rw [stride, h]
  rfl

section Operations

variable {x : Operand} {t : Ty}
variable {op : String} {q : Option Value} {y : Var}

theorem computes_const : Computes (const t x position) sc [.take sc.size (x.source t)] [t]
    (sc.grow [t]).newest :=
  computes_one fun _ _ _ _ hs hd hr h herr => hs.size ▸ const_ok herr hd hr h

theorem computes_copy (hv : sc.Has v) : Computes (copy v position) sc (UnaryOp.copy.read v sc.size).1 [v.ty]
    (sc.grow [v.ty]).newest :=
  computes_one fun _ _ _ _ hs hd hr h herr => hs.size ▸ copy_ok herr hd hr (hs.refers hv) h

theorem computes_load (hv : sc.Has v) : Computes (loadAs op v position) sc
    (UnaryOp.load.read v sc.size).1 [pointee v.ty] (sc.grow [pointee v.ty]).newest :=
  computes_one fun _ _ _ _ hs hd hr h herr => by
    obtain ⟨A', elem, hptr, hA'⟩ := loadAs_ok herr hd hr (hs.refers hv) h
    rw [UnaryOp.read, hptr, ← hs.size]
    exact ⟨A', hA'⟩

theorem computes_index (hv : sc.Has v) (hx : sc.HasOperand x) : Computes (index v x position) sc
    (BinaryOp.index.read v x sc.size).1 [v.ty] (sc.grow [v.ty]).newest :=
  computes_one fun _ _ _ _ hs hd hr h herr => by
    obtain ⟨A', elem, scale, hptr, hscale, hA'⟩ := index_ok herr hd hr (hs.refers hv) (hs.refersOperand hx) h
    rw [BinaryOp.read, hptr, pointee, stride_of_size hscale, ← hs.size, ← hptr]
    exact ⟨A', hA'⟩

theorem computes_element (hv : sc.Has v) (hx : sc.HasOperand x) : Computes (element v x position) sc
    (BinaryOp.element.read v x sc.size).1 (BinaryOp.element.read v x sc.size).2
    (sc.grow (BinaryOp.element.read v x sc.size).2).newest :=
  computes_one fun _ _ _ _ hs hd hr h herr => by
    obtain ⟨A', elem, n, scale, hptr, hscale, hA'⟩ :=
      element_ok herr hd hr (hs.refers hv) (hs.refersOperand hx) h
    rw [BinaryOp.read, hptr, pointee, elementOf, stride_of_size hscale, ← hs.size]
    exact ⟨A', hA'⟩

/-- Two variables are made: the pointer to the element, and the element. -/
theorem computes_elem (hv : sc.Has v) (hx : sc.HasOperand x) : Computes (elem v x position) sc
    (BinaryOp.elem.read v x sc.size).1 (BinaryOp.elem.read v x sc.size).2
    (sc.grow (BinaryOp.elem.read v x sc.size).2).newest := by
  intro s A w s' hs hd hr h herr
  obtain ⟨A', elem, scale, q, t, B, hptr, hscale, hB, hA'⟩ :=
    elem_ok herr hd hr (hs.refers hv) (hs.refersOperand hx) h
  obtain ⟨rfl, ht⟩ := makes_fits hB hs rfl
  obtain ⟨rfl, hs'⟩ := makes_fits hA' ht rfl
  rw [Scope.grow_grow] at hs' ⊢
  have hdraws := hB.toDraws.trans hA'.toDraws hd
  rw [hB.size, hs.size, sc.newest_grow] at hdraws
  rw [BinaryOp.read, hptr, pointee, stride_of_size hscale, ← hptr]
  exact ⟨rfl, hs', A', hdraws⟩

theorem computes_binary {op : BinaryOp} (hop : op ∈ BinaryOp.all) (hv : sc.Has v) (hx : sc.HasOperand x) :
    Computes (op.apply v x position) sc (op.read v x sc.size).1 (op.read v x sc.size).2
      (sc.grow (op.read v x sc.size).2).newest := by
  cases op with
  | arith op =>
    have hbinary : op.isBinary = true := by cases op <;> simp_all [BinaryOp.all, Op.isBinary]
    exact computes_one fun _ _ _ _ hs hd hr h herr => hs.size ▸
      arith_ok herr hd hr (hs.refers hv) (hs.refersOperand hx) hbinary h
  | compare c =>
    have hvalid : c.valid = true := by cases c <;> simp_all [BinaryOp.all, Cond.valid]
    exact computes_one fun _ _ _ _ hs hd hr h herr => hs.size ▸
      compare_ok herr hd hr (hs.refers hv) (hs.refersOperand hx) hvalid h
  | index => exact computes_index hv hx
  | offset =>
    exact computes_one fun _ _ _ _ hs hd hr h herr => hs.size ▸
      offset_ok herr hd hr (hs.refers hv) (hs.refersOperand hx) h
  | element => exact computes_element hv hx
  | elem => exact computes_elem hv hx

theorem computes_unary {op : UnaryOp} (hop : op ∈ [UnaryOp.arith .neg, .arith .not, .copy, .load])
    (hv : sc.Has v) : Computes (op.apply v position) sc (op.read v sc.size).1 (op.read v sc.size).2
      (sc.grow (op.read v sc.size).2).newest := by
  cases op with
  | arith op =>
    have hunary : op.isUnary = true := by cases op <;> simp_all [Op.isUnary]
    exact computes_one fun _ _ _ _ hs hd hr h herr => hs.size ▸ unary_ok herr hd hr (hs.refers hv) hunary h
  | copy => exact computes_copy hv
  | load => exact computes_load hv

theorem computes_convert (hv : sc.Has v) : Computes (convert v t position) sc
    [conversion sc.size t v.ty v.cell] [t] (sc.grow [t]).newest :=
  computes_one fun _ _ _ _ hs hd hr h herr => hs.size ▸ convert_ok herr hd hr (hs.refers hv) h

theorem computes_field {name : String} (hv : sc.Has v) : Computes (field v name position) sc
    (readField v name sc.size).1 (readField v name sc.size).2
    (sc.grow (readField v name sc.size).2).newest :=
  computes_one fun _ _ _ _ hs hd hr h herr => by
    obtain ⟨A', elem, f, hptr, hfind, hA'⟩ := field_ok herr hd hr (hs.refers hv) h
    rw [readField, hptr, pointee, hfind, ← hs.size]
    exact ⟨A', hA'⟩

theorem computes_diff (hv : sc.Has v) (hq : ∀ u, q = some u → sc.Has u) : Computes (diff v q position) sc
      [.make sc.size (.ptrDiff (stride (pointee v.ty)) 0 1) v.cell (.cell (conditionCell q))] [.i64]
      (sc.grow [.i64]).newest :=
  computes_one fun _ _ _ _ hs hd hr h herr => by
    obtain ⟨A', elem, scale, u, hptr, hscale, rfl, hA'⟩ :=
      diff_ok herr hd hr (hs.refers hv) (fun u hu => hs.refers (hq u hu)) h
    rw [hptr, pointee, stride_of_size hscale, ← hs.size]
    exact ⟨A', hA'⟩

theorem computes_var (hq : ∀ u, q = some u → sc.Has u) (hv : v = q.getD v) :
    Computes (var q position) sc (UnaryOp.copy.read v sc.size).1 [v.ty] (sc.grow [v.ty]).newest :=
  computes_one fun _ _ _ _ hs hd hr h herr => by
    obtain ⟨A', u, rfl, hA'⟩ := var_ok herr hd hr (fun u hu => hs.refers (hq u hu)) h
    obtain rfl : v = u := hv
    exact ⟨A', hs.size ▸ hA'⟩

theorem computes_store (hv : sc.Has v) (hx : sc.HasOperand x) : Computes (store v x position) sc
    [.store (pointee v.ty).kind v.cell (x.source (pointee v.ty))] [] () :=
  computes_none (fun _ _ _ _ hs hd hr h herr => by
    obtain ⟨A', elem, hptr, hA', -⟩ := store_ok herr hd hr (hs.refers hv) (hs.refersOperand hx) h
    rw [hptr]
    exact ⟨A', hA'⟩) rfl

theorem computes_assign (hv : sc.Has v) (hx : sc.HasOperand x) : Computes (assign v x position) sc
    [.assign v.cell (x.source v.ty)] [] () :=
  computes_none (fun _ _ _ _ hs hd hr h herr => by
    obtain ⟨A', hA', -⟩ := assign_ok herr hd hr (hs.refers hv) (hs.refersOperand hx) h
    exact ⟨A', hA'⟩) rfl

theorem computes_leaveLoop : Computes (leaveLoop position) sc [.leave] [] () :=
  computes_none (fun _ _ _ _ _ hd hr h herr => leaveLoop_ok herr hd hr h) rfl

theorem computes_nextRound : Computes (nextRound position) sc [.next] [] () :=
  computes_none (fun _ _ _ _ _ hd hr h herr => nextRound_ok herr hd hr h) rfl

theorem computes_ret (hx : sc.HasOperand x) :
    Computes (ret x position) sc [.ret (x.result sc.sig.result)] [] () :=
  computes_none (fun _ _ _ _ hs hd hr h herr => hs.sig ▸ ret_ok herr hd hr (hs.refersOperand hx) h) rfl

/-! ### Arguments and variables by name -/

/-- The arguments are the first variables, and the names of the script refer to variables. -/
structure Scope.Valid (sc : Scope) : Prop where
  first : sc.id.number = 0
  params : sc.sig.params <+: sc.types
  names : ∀ p ∈ sc.names, sc.Has p.2

theorem Scope.Valid.param (h : sc.Valid) {n : Nat} (ht : sc.sig.params[n]? = some t) :
    sc.Has ⟨sc.id, t, some n⟩ := by
  obtain ⟨types, htypes⟩ := h.params
  refine ⟨t, ?_, rfl⟩
  show sc.types[n]? = some t
  rw [← htypes]
  exact List.getElem?_append_left (List.getElem?_eq_some_iff.1 ht).1 ▸ ht

theorem arg_ok {n : Int} (hs : sc.Fits s) (h : arg n position s = .ok (w, s')) (herr : s'.error = none) :
    w = sc.argument n ∧ s' = s ∧ ∃ t, sc.sig.params[n.toNat]? = some t ∧ w = ⟨sc.id, t, some n.toNat⟩ := by
  have hrejected : ∀ e : Rejection,
      (do modify (fun s : Sketch => s.reject e); invalid .void : Edit Value) s ≠ .ok (w, s') := by
    intro e he
    cases he
    exact error_reject s e herr
  replace h := get_ok h
  dsimp only at h
  split at h
  · exact absurd h (hrejected _)
  cases hfetch : fetch? s.sig.params.toArray n with
  | none =>
    rw [hfetch] at h
    exact absurd h (hrejected _)
  | some t =>
    rw [hfetch] at h
    cases h
    rw [hs.sig] at hfetch
    rw [Scope.argument, hfetch, hs.id]
    refine ⟨rfl, rfl, t, ?_, rfl⟩
    cases n with
    | ofNat n => simpa [fetch?] using hfetch
    | negSucc n => cases hfetch

theorem args_ok {vs : List Value} (hs : sc.Fits s) (h : args position s = .ok (vs, s'))
    (herr : s'.error = none) : vs = sc.arguments ∧ s' = s := by
  replace h := get_ok h
  split at h
  · cases h
    exact absurd herr (error_reject s _)
  · cases h
    rw [Scope.arguments, hs.id, hs.sig]
    exact ⟨rfl, rfl⟩

theorem Scope.Valid.argument (h : sc.Valid) : ∀ v ∈ sc.arguments, sc.Has v := by
  intro v hv
  obtain ⟨⟨t, n⟩, hmem, rfl⟩ := List.mem_map.1 hv
  exact h.param (List.mem_zipIdx_iff_getElem?.1 hmem)

/-! ### Loops over numbers and elements -/

/-- A part of a loop that gives the variable of the loop its next value. -/
theorem computes_advance {next : Edit Value} {out : Value} (hnext : Computes next sc nodes made out)
    (hv : sc.Has v) (hout : (sc.grow made).Has out) :
    Computes (advance v next position) sc (nodes ++ [.assign v.cell (.cell out.cell)]) made () := by
  have hassign : Computes (assign v (.value (some out)) position) (sc.grow made) _ [] () :=
    computes_assign (hv.grow made) fun w hw => by cases hw; exact hout
  have h := hnext.bind (f := fun x => assign v (.value (some x)) position) hassign
  rwa [List.append_nil] at h

theorem computes_count (hv : sc.Has v) : Computes (countOf (.value (some v)) position) sc [] [] (some v) :=
  computes_silent fun s w s' hs h herr => by
    obtain ⟨_, t, hpure, h1⟩ := Attempt.bind_ok (ready_ok (attempt_ok h herr))
    obtain ⟨rfl, rfl⟩ := Attempt.pure_ok hpure
    obtain ⟨_, t, huse, h2⟩ := Attempt.bind_ok h1
    obtain ⟨rfl, -⟩ := receiver_ok (hs.refers hv) huse
    obtain ⟨rfl, rfl⟩ := Attempt.pure_ok h2
    exact ⟨rfl, rfl⟩

theorem computes_count_const {c : Host.HostValue} : Computes (countOf (.const c) position) sc
    [.take sc.size ((Operand.const c).source .i64)] [.i64] (some (sc.grow [.i64]).newest) := by
  intro s A w s' hs hd hr h herr
  obtain ⟨_, t, hmap, h1⟩ := Attempt.bind_ok (ready_ok (attempt_ok h herr))
  rw [map_eq_pure_bind] at hmap
  obtain ⟨u, t, hconst, hpure⟩ := Attempt.bind_ok hmap
  obtain ⟨rfl, rfl⟩ := Attempt.pure_ok hpure
  obtain ⟨A', hA'⟩ := constant_ok hd hr (by decide) hconst
  obtain ⟨rfl, ht⟩ := makes_fits hA' hs rfl
  obtain ⟨_, t, huse, h2⟩ := Attempt.bind_ok h1
  obtain ⟨rfl, -⟩ := receiver_ok (ht.refers (sc.has_newest_grow _)) huse
  obtain ⟨rfl, rfl⟩ := Attempt.pure_ok h2
  exact ⟨rfl, ht, A', hs.size ▸ hA'.toDraws⟩

theorem rangeOf_ok {first last : Option Value} {r : Option (Value × Value × Ty)} (hs : sc.Fits s)
    (hfirst : ∀ u, first = some u → sc.Has u) (hlast : ∀ u, last = some u → sc.Has u)
    (h : rangeOf first last position s = .ok (r, s')) (herr : s'.error = none) :
    s' = s ∧ ∃ f l t y, first = some f ∧ last = some l ∧ r = some (f, l, t) ∧ f.ty = .ptr t ∧
      Names s f y := by
  obtain ⟨_, t, huse, h1⟩ := Attempt.bind_ok (ready_ok (attempt_ok h herr))
  obtain ⟨rfl, f, -, rfl, -, -⟩ := use_refers (fun u hu => hs.refers (hfirst u hu)) huse
  obtain ⟨_, t, huse, h2⟩ := Attempt.bind_ok h1
  obtain ⟨rfl, l, -, rfl, -, -⟩ := use_refers (fun u hu => hs.refers (hlast u hu)) huse
  obtain ⟨_, t, hsame, h3⟩ := Attempt.bind_ok h2
  obtain ⟨rfl, -⟩ := same_ok hsame
  obtain ⟨⟨elem, p⟩, t, hpointee, h4⟩ := Attempt.bind_ok h3
  obtain ⟨rfl, y, hy, rfl, hptr, -⟩ := pointee_ok (hs.refers (hfirst f rfl)) hpointee
  obtain ⟨rfl, rfl⟩ := Attempt.pure_ok h4
  exact ⟨rfl, f, l, elem, y, rfl, rfl, rfl, hptr, hy⟩

/-- The value that a variable has at the moment. -/
def refNow (v : Value) (s : Sketch) : Ref :=
  ((v.var.bind fun id => s.vars[id]?).map Var.ref).getD noRef

theorem refNow_eq (hv : sc.Has v) (hy : s.vars[v.cell]? = some y) : refNow v s = y.ref := by
  obtain ⟨t, -, hv⟩ := hv
  have hvar : v.var = some v.cell := by rw [hv]; rfl
  rw [refNow, hvar, Option.bind_some, hy]
  rfl

theorem rangeStart_ok (hv : sc.Has v) (hy : Names s v y) (hd : Drawn s A) (hr : AllReady s A)
    (h : (get >>= fun s => newVar v.ty (refNow v s) position : Edit Value) s = .ok (w, s')) :
    ∃ A', Makes [.take s.vars.size (.cell v.cell)] s A s' A' w v.ty s.vars.size := by
  replace h := get_ok h
  rw [refNow_eq hv hy.var] at h
  exact (fetched_cell hd hr hy).takes hd (hy.kind hd) h

/-- Computing a pointer makes a variable, and nothing else happens to the variables. -/
theorem ptrAdd_vars {i : Operand} {scale : Int} {r : Ref} (hd : Drawn s A) (hr : AllReady s A)
    (hi : i.Refers s) (h : (ptrAdd op v r t i scale position).run s = .ok (.ok w, s')) :
    ∃ g x, s' = { s with gen := g, vars := s.vars.push x } := by
  obtain ⟨q, t1, hindex, h1⟩ := Attempt.bind_ok h
  obtain ⟨B, ity, hf, -⟩ := indexOf_ok hd hr hi hindex
  obtain ⟨g, rfl⟩ := hf.gen
  obtain ⟨q', t2, hop, h2⟩ := Attempt.bind_ok h1
  have hop := Attempt.lift_ok hop
  rw [operation_run] at hop
  cases hop
  cases Attempt.lift_ok h2
  exact ⟨_, _, rfl⟩

/-- Advance a pointer to elements of a type by one. -/
def nextPtr (t : Ty) (v : Value) (position : Position) : Edit Unit := do
  let size ← t.size
  advance v (do
    let s ← get
    attempt (← invalid v.ty) (ptrAdd "for-range" v (refNow v s) v.ty (.ofInt 1) size position)) position

/-- A loop over pointers goes on to the next one. -/
theorem computes_nextPtr (hv : sc.Has v) (hptr : v.ty = .ptr t) : Computes (nextPtr t v position) sc
    ((BinaryOp.index.read v (.ofInt 1) sc.size).1 ++ [.assign v.cell (.cell (sc.grow [v.ty]).newest.cell)])
    [v.ty] () := by
  intro s A u s' hs hd hr h herr
  obtain ⟨size, t1, hsize, h1⟩ := bind_ok h
  obtain ⟨hscale, rfl⟩ := lift_ok hsize
  obtain ⟨x, t2, hnext, hassign⟩ := bind_ok h1
  have herr2 : t2.error = none := Tame.error_eq_none hassign herr
  obtain ⟨y, hy, hvy⟩ := hs.refers hv
  have hadd := attempt_invalid_ok (get_ok hnext) herr2
  rw [refNow_eq hv hy] at hadd
  -- The assignment is accepted, so the variable is in scope.
  have hnames : Names t1 v y := by
    obtain ⟨g, z, rfl⟩ := ptrAdd_vars hd hr (refers_const _ _) hadd
    have hlt := (Array.getElem?_eq_some_iff.1 hy).1
    have hy' : (t1.vars.push z)[v.cell]? = some y := by
      rw [Array.getElem?_push_lt hlt, ← hy, Array.getElem?_eq_getElem hlt]
    have hrefers : Refers { t1 with gen := g, vars := t1.vars.push z } v := ⟨y, hy', hvy⟩
    obtain ⟨y', hy'', -⟩ := applied_ok hrefers (attempt_ok hassign herr)
    cases hy'.symm.trans hy''.var
    exact ⟨hy, hy''.ty, hy''.inScope⟩
  obtain ⟨B, hB⟩ := ptrAdd_ok hd hr (refers_const _ _) hnames hptr (hnames.kind hd) hadd
  obtain ⟨rfl, ht2⟩ := makes_fits hB hs rfl
  obtain ⟨-, hs', A', hA'⟩ := computes_assign (hv.grow [v.ty])
    (fun w hw => by cases hw; exact sc.has_newest_grow v.ty) t2 B u s' ht2 hB.progress.drawn
    hB.progress.ready hassign herr
  rw [BinaryOp.read, hptr, pointee, stride_of_size hscale, ← hptr, ← hs.size]
  exact ⟨rfl, sc.grow_grow [v.ty] [] ▸ hs', A', hB.toDraws.trans hA' hd⟩

end Operations

end Codesmith.Script
