import Codesmith.Proofs.Describe.Accepted
import Codesmith.Proofs.Describe.Drawn
import Codesmith.Proofs.Direct.Operand

/-!
# Statements that compute

An operation on values is drawn as a line of the current block, after the lines of the constants it
takes, and its result is noted for a new variable. `Draws` says of statements of a structured program that
a sketch has made progress by describing them; each operation draws one or two such statements.
-/

namespace Codesmith

namespace Gen.Sheet

variable {A : Sheet} {it : Item} {c : Chart} {r : Ref} {t : Ty}

theorem HasTy.push (h : A.HasTy r t) (hc : A.chart.Adds it c) : (A.push it c).HasTy r t := by
  obtain ⟨hhome, hty⟩ := hc.home r h.1
  exact ⟨hhome ▸ h.1, hty.trans h.2⟩

theorem hasTy_value (A : Sheet) (r : Ref) (op : Operation) : (A.value r op).HasTy r op.ty := by
  constructor
  · show Function.update A.chart.home r _ r ≠ none
    rw [Function.update_self]
    exact nofun
  · exact Function.update_self _ _ _

theorem push_top (hc : A.chart.Adds it c) : (A.push it c).top = A.top + 1 := by
  show (A.push it c).last c.current = _
  rw [hc.current, push_last]

theorem push_item (A : Sheet) (it : Item) (c : Chart) :
    ((A.push it c).items A.chart.current)[A.top]? = some it :=
  push_getElem?.2 (.inr ⟨rfl, rfl, rfl⟩)

end Gen.Sheet

namespace Describe

open Gen
open Direct

variable {s s' t : Sketch} {A A' B C : Sheet} {nodes nodes' : List Node} {position : Position}
variable {op : String} {v : Nat} {r : Ref} {x : Var} {ty : Ty}

/-! ## Drawing statements -/

/-- The edges to the next round of the innermost loop. -/
def Sketch.continues (s : Sketch) : List EdgeFlow :=
  (s.loops.head?.map Loop.continues).getD []

/-- No edge was drawn to the next round of the innermost loop. -/
def Sketch.Calm (s s' : Sketch) : Prop :=
  s'.continues = s.continues

theorem calm_of_loops (h : s'.loops = s.loops) : s.Calm s' := by
  rw [Sketch.Calm, Sketch.continues, h]
  rfl

instance : LastingGen Sketch.Calm where
  beside h := calm_of_loops h.loops
  trans h h' := h'.trans h
  gen _ _ := rfl

/-- The sketch has made progress by describing statements. -/
structure Draws (nodes : List Node) (s : Sketch) (A : Sheet) (s' : Sketch) (A' : Sheet) : Prop where
  progress : Progress (· ∈ assignedAll nodes) s A s' A'
  laid : LaidAll A' s.around nodes (point s A) (point s' A')
  made : ∀ v, s.vars.size ≤ v → v < s'.vars.size → v ∈ madeAll nodes
  calm : continuesAny nodes = false → s.Calm s'

theorem assignedAll_append (ns ms : List Node) :
    assignedAll (ns ++ ms) = assignedAll ns ++ assignedAll ms := by
  induction ns with
  | nil => rfl
  | cons n ns ih => simp [assignedAll, ih]

theorem madeAll_append (ns ms : List Node) : madeAll (ns ++ ms) = madeAll ns ++ madeAll ms := by
  induction ns with
  | nil => rfl
  | cons n ns ih => simp [madeAll, ih]

theorem continuesAny_append (ns ms : List Node) :
    continuesAny (ns ++ ms) = (continuesAny ns || continuesAny ms) := by
  induction ns with
  | nil => rfl
  | cons n ns ih => simp [continuesAny, ih, Bool.or_assoc]

theorem Draws.trans {u : Sketch} (h : Draws nodes s A t B) (h' : Draws nodes' t B u C)
    (hs : Drawn s A) : Draws (nodes ++ nodes') s A u C where
  progress := (h.progress.trans h'.progress hs).congr fun v => by
    rw [assignedAll_append, List.mem_append]
  laid := by
    have hlaid := h'.laid
    rw [h.progress.feeds.around] at hlaid
    exact (h.laid.mono h'.progress.grows.ext).append hlaid
  made v hv hlt := by
    rw [madeAll_append, List.mem_append]
    by_cases hvt : v < t.vars.size
    · exact .inl (h.made v hv hvt)
    · exact .inr (h'.made v (not_lt.1 hvt) hlt)
  calm hn := by
    rw [continuesAny_append, Bool.or_eq_false_iff] at hn
    exact Lasting.trans (h.calm hn.1) (h'.calm hn.2)

/-- Statements that assign to nothing and are laid out as they are described. -/
theorem draws_of_progress (h : Progress (fun _ => False) s A s' A') (hn : assignedAll nodes = [])
    (hlaid : s.dead = false → LaidAll A' s.around nodes (some (A.chart.current, A.top)) (point s' A'))
    (hmade : ∀ v, s.vars.size ≤ v → v < s'.vars.size → v ∈ madeAll nodes)
    (hcalm : continuesAny nodes = false → s.Calm s') : Draws nodes s A s' A' where
  progress := h.congr fun v => by simp [hn]
  laid := by
    cases hdead : s.dead with
    | true =>
      rw [point, point, hdead, h.evolves.quiet hdead]
      exact laidAll_none nodes
    | false =>
      have := hlaid hdead
      rwa [point, hdead]
  made := hmade
  calm := hcalm

/-! ## Values and variables -/

def Refers (s : Sketch) (w : Value) : Prop :=
  ∃ x, s.vars[w.cell]? = some x ∧ w = ⟨s.id, x.ty, some w.cell⟩

def Operand.Refers (s : Sketch) (x : Operand) : Prop :=
  ∀ w, x = .value (some w) → Describe.Refers s w

/-- The handle refers to a variable in scope. -/
structure Names (s : Sketch) (w : Value) (x : Var) : Prop where
  var : s.vars[w.cell]? = some x
  ty : w.ty = x.ty
  inScope : s.isClosed x = false

theorem use_refers {v : Option Value} (hv : ∀ w, v = some w → Refers s w)
    (h : (use op v position).run s = .ok (.ok r, s')) :
    s = s' ∧ ∃ w x, v = some w ∧ Names s w x ∧ r = x.ref := by
  obtain ⟨rfl, w, id, x, rfl, -, hid, hx, hopen, rfl⟩ := use_ok h
  obtain ⟨x', hx', hw⟩ := hv w rfl
  have hcell : w.cell = id := by rw [Value.cell, hid]; rfl
  rw [hcell] at hx'
  cases hx.symm.trans hx'
  exact ⟨rfl, w, x, rfl, ⟨hcell ▸ hx, by rw [hw], hopen⟩, rfl⟩

/-! ## Steps -/

theorem Ready.live {p : Nat → Prop} (h : Ready s A p) (hlive : ¬ A.dead A.chart.current) :
    s.dead = false := by
  cases hdead : s.dead with
  | false => rfl
  | true => exact absurd (h.dead.2 hdead) hlive

theorem alike_gen (s : Sketch) (g : Generator) : s.Alike { s with gen := g } :=
  ⟨rfl, rfl, rfl, rfl, rfl, rfl, rfl, rfl, fun _ x hx => ⟨x, hx, rfl, rfl⟩⟩

theorem evolves_gen (s : Sketch) (g : Generator) : Evolves (fun _ => False) s { s with gen := g } where
  toDrifts := (alike_gen s g).drifts fun _ _ hv hx => absurd (Array.getElem?_eq_some_iff.1 hx).1 (not_lt.2 hv)
  refs _ _ _ _ hx hx' := by
    cases hx.symm.trans hx'
    rfl
  frames := .refl _
  quiet h := h

theorem Drawn.vars_push (hd : Drawn s A) {it : Item} {c : Chart} (hc : A.chart.Adds it c)
    (hx : s.vars[v]? = some x) :
    (A.push it c).HasTy x.ref x.ty ∧ x.ty.kind ≠ .invalid ∧ x.scope < s.nextScope :=
  ⟨(hd.ty v x hx).1.push hc, (hd.ty v x hx).2, hd.scope v x hx⟩

theorem operation_ok {op : Operation} (h : operation op position s = .ok (r, s')) (hd : Drawn s A)
    (hr : AllReady s A) (hop : op.Fits A.chart.ty)
    (hheld : s.dead = false → ∀ x ∈ op.compute.reads, A.Held A.chart.current A.top x) :
    (∃ g, s' = { s with gen := g }) ∧ Progress (fun _ => False) s A s' (A.value r op) := by
  obtain ⟨x, g, hvalue, hx, hshows⟩ := (hd.shows.setPosition (some position)).value hr.exit hop
    fun hlive => hheld (hr.live hlive)
  have hrun : operation op position s = .ok (x, { s with gen := g }) := by
    rw [operation_run, hvalue]
  cases h.symm.trans hrun
  have hc := Chart.adds_value hx op
  exact ⟨⟨g, rfl⟩, progress_push hd hr hc hshows (evolves_gen s g) (alike_gen s g) rfl (fun _ _ => nofun)
    (fun v y hy => hd.vars_push hc hy) fun hlive v y hy hopen => hr.env hlive v y trivial hy hopen⟩

theorem newVar_ok {w : Value} (h : newVar ty r position s = .ok (w, s')) (hd : Drawn s A)
    (hr : AllReady s A) (hty : A.HasTy r ty) (hkind : ty.kind ≠ .invalid)
    (hheld : s.dead = false → A.Held A.chart.current A.top r) :
    w = ⟨s.id, ty, some s.vars.size⟩ ∧ s'.vars.size = s.vars.size + 1 ∧ Refers s' w ∧
      Progress (fun _ => False) s A s' (A.note s.vars.size r) := by
  cases h
  have hc := A.chart.adds_note s.vars.size r
  have hshows := hd.shows.note hr.exit s.vars.size hty.1 fun hlive => hheld (hr.live hlive)
  have hold : ∀ {v : Nat} {y : Var} {z : Var}, (s.vars.push z)[v]? = some y →
      s.vars[v]? = some y ∨ v = s.vars.size ∧ y = z := by
    intro v y z hy
    rcases lt_trichotomy v s.vars.size with hv | rfl | hv
    · rw [Array.getElem?_push_lt hv] at hy
      exact .inl ((Array.getElem?_eq_getElem hv).trans hy)
    · rw [Array.getElem?_push_size] at hy
      exact .inr ⟨rfl, (Option.some.inj hy).symm⟩
    · rw [Array.getElem?_eq_none (by simpa using hv)] at hy
      cases hy
  have hkept : ∀ {v : Nat} {y : Var} (z : Var), s.vars[v]? = some y →
      (s.vars.push z)[v]? = some y := by
    intro v y z hy
    obtain ⟨hv, hy'⟩ := Array.getElem?_eq_some_iff.1 hy
    rw [Array.getElem?_push_lt hv, hy']
  refine ⟨rfl, Array.size_push _, ⟨_, Array.getElem?_push_size, rfl⟩, ?_⟩
  have halike : s.Alike { s with vars := s.vars.push ⟨ty, r, s.scopes.headD 0, position⟩ } :=
    ⟨rfl, rfl, rfl, rfl, rfl, rfl, rfl, rfl, fun v y hy => ⟨y, hkept _ hy, rfl, rfl⟩⟩
  refine progress_push hd hr hc hshows ⟨halike.drifts fun v y hv hy => ?_, fun v y y' _ hy hy' => ?_,
    .refl _, fun h => h⟩ halike rfl ?_ ?_ ?_
  · rcases hold hy with hy | ⟨-, rfl⟩
    · exact absurd (Array.getElem?_eq_some_iff.1 hy).1 (not_lt.2 hv)
    · rfl
  · cases (hkept _ hy).symm.trans hy'
    rfl
  · intro v x hx hv
    cases hx
    exact absurd hv (lt_irrefl _)
  · intro v y hy
    rcases hold hy with hy | ⟨-, rfl⟩
    · exact hd.vars_push hc hy
    · refine ⟨hty.push hc, hkind, hd.scopes _ ?_⟩
      cases s.scopes with
      | nil => exact List.mem_cons_self
      | cons k ks => exact List.mem_cons_of_mem _ List.mem_cons_self
  · intro hlive v y hy hopen hstrict
    rcases hold hy with hy | ⟨rfl, rfl⟩
    · exact .inr ⟨(Array.getElem?_eq_some_iff.1 hy).1.ne, hr.env hlive v y trivial hy hopen hstrict⟩
    · exact .inl ⟨rfl, rfl⟩

theorem assign_step {id : Nat} (hd : Drawn s A) (hr : AllReady s A) (hx : s.vars[id]? = some x)
    (hty : A.HasTy r x.ty) (hheld : s.dead = false → A.Held A.chart.current A.top r) :
    Progress (· = id) s A { s.setRef id r with frames := match s.frames with
      | [] => []
      | f :: fs => f.add id :: fs } (A.note id r) := by
  have hc := A.chart.adds_note id r
  have hshows := hd.shows.note hr.exit id hty.1 fun hlive => hheld (hr.live hlive)
  have hvar : ∀ (v : Nat) y, s.vars[v]? = some y →
      (s.setRef id r).vars[v]? = some (if id = v then { y with ref := r } else y) := by
    intro v y hy
    rw [Sketch.setRef_vars, hy]
    rfl
  have hback : ∀ (v : Nat) y', (s.setRef id r).vars[v]? = some y' →
      ∃ y, s.vars[v]? = some y ∧ y' = if id = v then { y with ref := r } else y := by
    intro v y' hy'
    rw [Sketch.setRef_vars] at hy'
    obtain ⟨y, hy, rfl⟩ := Option.map_eq_some_iff.1 hy'
    exact ⟨y, hy, rfl⟩
  have halike : s.Alike { s.setRef id r with frames := match s.frames with
      | [] => []
      | f :: fs => f.add id :: fs } := by
    refine ⟨rfl, rfl, rfl, rfl, rfl, rfl, rfl, rfl, fun v y hy => ⟨_, hvar v y hy, ?_⟩⟩
    split <;> exact ⟨rfl, rfl⟩
  refine progress_push hd hr hc hshows ⟨halike.drifts fun v y' hv hy' => ?_, fun v y y' hv hy hy' => ?_,
    ?_, fun h => h⟩ halike rfl ?_ ?_ ?_
  · obtain ⟨y, hy, -⟩ := hback v y' hy'
    exact absurd (Array.getElem?_eq_some_iff.1 hy).1 (not_lt.2 hv)
  · obtain ⟨y1, hy1, rfl⟩ := hback v y' hy'
    cases hy.symm.trans hy1
    rw [if_neg fun heq => hv heq.symm]
  · show FramesGrow _ s.frames _
    cases s.frames with
    | nil => exact rfl
    | cons f fs =>
      refine ⟨_, rfl, fun v => ?_⟩
      rw [BitSet.Plain.contains_add, Int.ofNat_inj, or_comm]
  · intro v y hy _
    cases hy
    rfl
  · intro v y' hy'
    obtain ⟨y, hy, rfl⟩ := hback v y' hy'
    obtain ⟨hty', hkind, hscope⟩ := hd.vars_push hc hy
    split
    · rename_i heq
      subst heq
      cases hx.symm.trans hy
      exact ⟨hty.push hc, hkind, hscope⟩
    · exact ⟨hty', hkind, hscope⟩
  · intro hlive v y' hy' hopen hstrict
    obtain ⟨y, hy, rfl⟩ := hback v y' hy'
    by_cases heq : id = v
    · subst heq
      rw [if_pos rfl]
      exact .inl ⟨rfl, rfl⟩
    · rw [if_neg heq] at hopen ⊢
      exact .inr ⟨Ne.symm heq, hr.env hlive v y trivial hy hopen hstrict⟩

theorem store_step (position : Position) {p : Ref} (hd : Drawn s A) (hr : AllReady s A)
    (hp : (A.chart.ty p).isPtr = true) (hty : A.chart.ty r = ty) (hkind : ty.kind ≠ .invalid)
    (hheld : s.dead = false → A.Held A.chart.current A.top p ∧ A.Held A.chart.current A.top r) :
    Progress (fun _ => False) s A
      { s with gen := (s.gen.setPosition (some position)).store ty p r } (A.store ty p r) := by
  have hc := A.chart.adds_store ty p r
  have hshows := (hd.shows.setPosition (some position)).store hr.exit hp hty hkind fun hlive =>
    hheld (hr.live hlive)
  exact progress_push hd hr hc hshows (evolves_gen s _) (alike_gen s _) rfl (fun _ _ => nofun)
    (fun v y hy => hd.vars_push hc hy) fun hlive v y hy hopen => hr.env hlive v y trivial hy hopen

theorem Drawn.kind (hd : Drawn s A) {n : Nat} (hx : s.vars[n]? = some x) : x.ty.kind ≠ .invalid :=
  (hd.ty n x hx).2

section

variable {w : Value} (h : Names s w x) (hd : Drawn s A)
include h hd

theorem Names.hasTy : A.HasTy x.ref w.ty :=
  h.ty ▸ (hd.ty _ x h.var).1

theorem Names.kind : w.ty.kind ≠ .invalid :=
  h.ty ▸ hd.kind h.var

end

/-! ## Operands -/

/-- The word of a source was fetched into a value of a type. -/
structure Fetched (s : Sketch) (A : Sheet) (s' : Sketch) (A' : Sheet) (x : Source) (r : Ref) (ty : Ty) :
    Prop where
  progress : Progress (fun _ => False) s A s' A'
  gen : ∃ g, s' = { s with gen := g }
  current : A'.chart.current = A.chart.current
  ty : A'.HasTy r ty
  fetches : s.dead = false → Fetches A' A.chart.current A.top x r A'.top
  held : s.dead = false → A'.Held A.chart.current A'.top r

section

variable (hd : Drawn s A) (hr : AllReady s A)
include hd hr

theorem Progress.refl : Progress (fun _ => False) s A s A where
  drawn := hd
  ready := hr
  grows := .refl A
  idle _ h := h
  evolves := evolves_gen s s.gen
  feeds := feeds_none hd (Sheet.grows_self A) rfl fun _ _ _ _ => id

/-- The value of a variable is there already. -/
theorem fetched_cell {w : Value} (h : Names s w x) : Fetched s A s A (.cell w.cell) x.ref w.ty where
  progress := .refl hd hr
  gen := ⟨s.gen, rfl⟩
  current := rfl
  ty := h.hasTy hd
  fetches hlive := .cell (hr.env hlive w.cell x trivial h.var h.inScope)
  held hlive := (hr.env hlive w.cell x trivial h.var h.inScope).held

/-- A constant takes a line. -/
theorem fetched_word {bits : UInt64} (hkind : ty.kind ≠ .invalid)
    (h : operation (.const ty bits) position s = .ok (r, s')) :
    Fetched s A s' (A.value r (.const ty bits)) (.word (ty.kind.norm bits)) r ty := by
  obtain ⟨hgen, hp⟩ := operation_ok h hd hr hkind nofun
  have htop : (A.value r (.const ty bits)).top = A.top + 1 := by
    show Sheet.last _ _ = _
    rw [show (A.value r (.const ty bits)).chart.current = A.chart.current from rfl]
    exact Sheet.push_last _ _ _
  refine ⟨hp, hgen, rfl, Sheet.hasTy_value A r (.const ty bits), fun _ => ?_, fun _ => ?_⟩
  · rw [htop]
    exact .word (Sheet.push_item A _ _)
  · rw [htop]
    exact Sheet.Defined.held ⟨A.top, _, Nat.lt_succ_self _, Sheet.push_item A _ _, rfl⟩

theorem operandOf_ok {x : Operand} (hx : x.Refers s) (hkind : ty.kind ≠ .invalid)
    (h : (operandOf op ty x position).run s = .ok (.ok r, s')) :
    ∃ A', Fetched s A s' A' (x.source ty) r ty := by
  obtain ⟨⟨u, q⟩, t, hoperand, hrest⟩ := Attempt.bind_ok h
  obtain ⟨_, t', hsame, hpure⟩ := Attempt.bind_ok hrest
  obtain ⟨rfl, rfl⟩ := same_ok hsame
  obtain ⟨rfl, rfl⟩ := Attempt.pure_ok hpure
  unfold operand at hoperand
  cases x with
  | value v =>
    obtain ⟨q', t', huse, hoperand⟩ := Attempt.bind_ok hoperand
    obtain ⟨hres, rfl⟩ := Attempt.pure_ok hoperand
    obtain ⟨rfl, w, y, rfl, hy, rfl⟩ := use_refers (fun w hw => hx w (by rw [hw])) huse
    obtain ⟨rfl, rfl⟩ : w.ty = ty ∧ y.ref = q := by simpa using hres
    exact ⟨A, fetched_cell hd hr hy⟩
  | const c =>
    dsimp only at hoperand
    cases hbits : constBits ty c with
    | none =>
      rw [hbits] at hoperand
      cases hoperand
    | some bits =>
      rw [hbits] at hoperand
      obtain ⟨q', t', hop, hoperand⟩ := Attempt.bind_ok hoperand
      obtain ⟨hres, rfl⟩ := Attempt.pure_ok hoperand
      obtain ⟨-, rfl⟩ := Prod.mk.inj hres
      refine ⟨A.value q' (.const ty bits), ?_⟩
      rw [Operand.source, hbits]
      exact fetched_word hd hr hkind (Attempt.lift_ok hop)

end

/-! ## Operations -/

/-- Statements were described of which the last makes a variable of a type. -/
structure Makes (nodes : List Node) (s : Sketch) (A : Sheet) (s' : Sketch) (A' : Sheet) (w : Value)
    (ty : Ty) (out : Nat) : Prop extends Draws nodes s A s' A' where
  value : w = ⟨s.id, ty, some out⟩
  size : s'.vars.size = out + 1
  refers : Refers s' w

section Steps

variable {x : Source} {r : Ref} {ty : Ty} {w : Value}

section

variable (h : Fetched s A t B x r ty)
include h

theorem Fetched.ready : AllReady t B :=
  h.progress.ready

theorem Fetched.dead : t.dead = s.dead := by
  obtain ⟨g, rfl⟩ := h.gen
  rfl

theorem Fetched.vars : t.vars = s.vars := by
  obtain ⟨g, rfl⟩ := h.gen
  rfl

theorem Fetched.calm : s.Calm t := by
  obtain ⟨g, rfl⟩ := h.gen
  rfl

theorem Fetched.id : t.id = s.id := by
  obtain ⟨g, rfl⟩ := h.gen
  rfl

end

section

variable (hf : Fetched s A t B x r ty) (hd : Drawn s A)
include hf hd

/-- A variable takes over the word of a source. -/
theorem Fetched.takes (hkind : ty.kind ≠ .invalid) (h : newVar ty r position t = .ok (w, s')) :
    ∃ A', Makes [.take s.vars.size x] s A s' A' w ty s.vars.size := by
  have hheld : t.dead = false → B.Held B.chart.current B.top r := fun hlive => by
    rw [hf.current]
    exact hf.held (hf.dead ▸ hlive)
  obtain ⟨hw, hsize, hrefers, hp⟩ := newVar_ok h hf.progress.drawn hf.ready hf.ty hkind hheld
  rw [hf.vars] at hw hsize hp
  have hp' := (hf.progress.trans hp hd).congr fun v => or_self_iff
  refine ⟨_, ⟨draws_of_progress hp' rfl (fun hlive => ?_) (fun v hv hlt => ?_) fun _ => ?_, hf.id ▸ hw, hsize,
    hrefers⟩⟩
  · refine laidAll_one ⟨r, B.top, (hf.fetches hlive).mono hp.grows.ext, ?_, ?_⟩
    · rw [← hf.current]
      exact Sheet.push_item B _ _
    · have hdead : s'.dead = false := by
        cases h
        exact hf.dead.trans hlive
      rw [point, hdead, ← Sheet.push_top (B.chart.adds_note s.vars.size r), ← hf.current]
      rfl
  · rw [show v = s.vars.size by omega]
    exact List.mem_singleton_self _
  · cases h
    exact hf.calm

/-- A variable gets the result of a computation. -/
theorem Fetched.makes {v : Value} {y : Var} (hy : Names s v y) (op : Operation) {c : Compute}
    (hc : op.compute = c.rename (pair y.ref r)) (hop : op.Fits B.chart.ty) (hkind : op.ty.kind ≠ .invalid)
    (h : (do newVar op.ty (← operation op position) position : Attempt Value).run t = .ok (.ok w, s')) :
    ∃ A', Makes [.make s.vars.size c v.cell x] s A s' A' w op.ty s.vars.size := by
  obtain ⟨q, u, hoperation, hnew⟩ := Attempt.bind_ok h
  replace hoperation := Attempt.lift_ok hoperation
  replace hnew := Attempt.lift_ok hnew
  obtain ⟨g0, rfl⟩ := hf.gen
  have hknown : s.dead = false → B.Knows B.chart.current B.top v.cell y.ref := fun hlive =>
    hf.ready.env hlive v.cell y trivial hy.var hy.inScope
  have hheld : s.dead = false → ∀ z ∈ op.compute.reads, B.Held B.chart.current B.top z := by
    intro hlive z hz
    rw [hc, Compute.reads_rename] at hz
    obtain ⟨i, -, rfl⟩ := List.mem_map.1 hz
    unfold pair
    split
    · exact (hknown hlive).held
    · rw [hf.current]
      exact hf.held hlive
  obtain ⟨⟨g, rfl⟩, hp⟩ := operation_ok hoperation hf.progress.drawn hf.ready hop hheld
  have hadds : B.chart.Adds (.line (.compute q op.compute)) (B.chart.value q op) := by
    obtain ⟨z, g', hvalue, hz, -⟩ := (hf.progress.drawn.shows.setPosition (some position)).value
      hf.ready.exit hop fun hlive => hheld (hf.ready.live hlive)
    rw [operation_run, hvalue] at hoperation
    cases hoperation
    exact Chart.adds_value hz op
  set D := B.value q op with hD
  have hcurrent : D.chart.current = B.chart.current := rfl
  have htop : D.top = B.top + 1 := Sheet.push_top hadds
  have hline : (D.items B.chart.current)[B.top]? = some (.line (.compute q op.compute)) :=
    Sheet.push_item B _ _
  have hheld' : s.dead = false → D.Held D.chart.current D.top q := fun _ => by
    rw [hcurrent, htop]
    exact Sheet.Defined.held ⟨B.top, _, Nat.lt_succ_self _, hline, rfl⟩
  obtain ⟨hw, hsize, hrefers, hp'⟩ := newVar_ok hnew hp.drawn hp.ready (Sheet.hasTy_value B q op) hkind hheld'
  have hall := ((hf.progress.trans hp hd).trans hp' hd).congr fun v => by
    show (False ∨ False) ∨ False ↔ False
    simp
  have hext : B.Extends (D.note s.vars.size q) := hp.grows.ext.trans hp'.grows.ext
  refine ⟨_, ⟨draws_of_progress hall rfl (fun hlive => ?_) (fun v hv hlt => ?_) fun _ => ?_, hw, hsize, hrefers⟩⟩
  · refine laidAll_one ⟨r, B.top, q, y.ref, (hf.fetches hlive).mono hext, ?_, ?_, ?_, ?_⟩
    · rw [← hf.current]
      exact hext.knows _ _ _ _ (hknown hlive)
    · rw [← hf.current, ← hc]
      exact hp'.grows.ext.getElem? hline
    · rw [← hf.current, ← hcurrent, ← htop]
      exact Sheet.push_item D _ _
    · have hdead : s'.dead = false := by
        cases hnew
        exact hlive
      rw [point, hdead, show B.top + 2 = D.top + 1 by rw [htop],
        ← Sheet.push_top (D.chart.adds_note s.vars.size q), ← hf.current, ← hcurrent]
      rfl
  · change s'.vars.size = s.vars.size + 1 at hsize
    rw [show v = s.vars.size by omega]
    exact List.mem_singleton_self _
  · cases hnew
    rfl

end

end Steps

section Operations

variable {α : Type} {x : Operand} {v w : Value} {r : Ref} {ty : Ty} {a : α}
variable {y : Var} {op : String} {u : Unit}

/-- An operation that stands for an invalid value if it is rejected. -/
theorem attempt_invalid_ok {a : Attempt Value}
    (h : (do attempt (← invalid ty) a : Edit Value) s = .ok (w, s')) (herr : s'.error = none) :
    a.run s = .ok (.ok w, s') := by
  obtain ⟨u, t, hinvalid, hattempt⟩ := bind_ok h
  cases hinvalid
  exact attempt_ok hattempt herr

theorem liftExcept_ok {e : Except Fault α} (h : (liftM e : Attempt α).run s = .ok (.ok a, s')) :
    e = .ok a ∧ s = s' := by
  have hlift : (liftM (liftM e : Edit α) : Attempt α).run s = .ok (.ok a, s') := h
  obtain ⟨he, hs⟩ := lift_ok (Attempt.lift_ok hlift)
  exact ⟨he, hs.symm⟩

theorem refers_const (s : Sketch) (c : Host.HostValue) : (Operand.const c).Refers s :=
  fun _ => nofun

/-! ### Types -/

theorem isBool_iff_kind : ty.isBool = true ↔ ty.kind = .bool := by
  cases ty with
  | int bits signed =>
    simp only [Ty.kind, Ty.isBool]
    split <;> simp
  | _ => simp [Ty.kind, Ty.isBool]

theorem isPtr_iff_kind : ty.isPtr = true ↔ ty.kind = .ptr := by
  cases ty with
  | int bits signed =>
    simp only [Ty.kind, Ty.isPtr]
    split <;> simp
  | _ => simp [Ty.kind, Ty.isPtr]

/-- An integer type has a width, so its values are numbers. -/
theorem kind_of_isInt (hkind : ty.kind ≠ .invalid) (h : ty.isInt = true) :
    ∃ width signed, ty.kind = .int width signed := by
  cases ty with
  | int bits signed =>
    cases hw : Width.ofBits? bits with
    | some width => exact ⟨width, signed, by simp [Ty.kind, hw]⟩
    | none => exact absurd (by simp [Ty.kind, hw]) hkind
  | _ => cases h

theorem binaryKind_ok {op : Op} (hkind : ty.kind ≠ .invalid) (hop : op.isBinary = true)
    (h : ty.isInt = false → ty.isBool = true ∧ op.isLogical = true) :
    Draft.binaryKind op ty.kind = .ok () := by
  rw [Draft.binaryKind, hop]
  cases hint : ty.isInt with
  | true =>
    obtain ⟨width, signed, hk⟩ := kind_of_isInt hkind hint
    simp [hk]
  | false =>
    obtain ⟨hbool, hlogical⟩ := h hint
    simp [isBool_iff_kind.1 hbool, hlogical]

theorem unaryType_ok {op : Op} (hkind : ty.kind ≠ .invalid) (hop : op.isUnary = true)
    (h : ty.isInt = false → ty.isBool = true ∧ op = .not) : Draft.unaryType op ty = .ok () := by
  rw [Draft.unaryType, hop]
  cases hint : ty.isInt with
  | true =>
    obtain ⟨width, signed, hk⟩ := kind_of_isInt hkind hint
    simp [hk]
  | false =>
    obtain ⟨hbool, rfl⟩ := h hint
    rw [isBool_iff_kind.1 hbool]
    rfl

theorem compareKind_ok {c : Cond} (hc : c.valid = true) (h : ty.isBool = true → c.isEquality = true) :
    Draft.compareKind c ty.kind = .ok () := by
  rw [Draft.compareKind, hc]
  by_cases hk : ty.kind = .bool
  · simp [h (isBool_iff_kind.2 hk)]
  · simp [hk]

/-! ### Receivers -/

section Receivers

variable (hv : Refers s v)
include hv

theorem receiver_ok (h : (use op (some v) position).run s = .ok (.ok r, s')) :
    s = s' ∧ ∃ y, Names s v y ∧ r = y.ref := by
  obtain ⟨hs, v', y, hv', hy, hr⟩ := use_refers (fun w hw => Option.some.inj hw ▸ hv) h
  cases hv'
  exact ⟨hs, y, hy, hr⟩

theorem applied_ok {f : Ref → Attempt α} (h : (do ready op position; f (← use op (some v) position) :
      Attempt α).run s = .ok (.ok a, s')) : ∃ y, Names s v y ∧ (f y.ref).run s = .ok (.ok a, s') := by
  obtain ⟨r, t, huse, h⟩ := Attempt.bind_ok (ready_ok h)
  obtain ⟨rfl, y, hy, rfl⟩ := receiver_ok hv huse
  exact ⟨y, hy, h⟩

theorem pointee_ok {elem : Ty} {p : Ref} (h : (pointee op v position).run s = .ok (.ok (elem, p), s')) :
    s = s' ∧ ∃ y, Names s v y ∧ p = y.ref ∧ v.ty = .ptr elem ∧ elem.isVoid = false := by
  obtain ⟨y, hy, h⟩ := applied_ok hv h
  split at h
  · cases h
  · rename_i elem' hne hv'
    cases h
    refine ⟨rfl, y, hy, rfl, hv', ?_⟩
    cases elem with
    | void => exact absurd rfl hne
    | _ => rfl
  · cases h

theorem pointed_ok {f : Ty × Ref → Attempt α} (h : (pointee op v position >>= f).run s = .ok (.ok a, s')) :
    ∃ elem y, Names s v y ∧ v.ty = .ptr elem ∧ (f (elem, y.ref)).run s = .ok (.ok a, s') := by
  obtain ⟨⟨elem, p⟩, t, hpointee, h⟩ := Attempt.bind_ok h
  obtain ⟨rfl, y, hy, rfl, hptr, -⟩ := pointee_ok hv hpointee
  exact ⟨elem, y, hy, hptr, h⟩

end Receivers

section

variable (hd : Drawn s A) (hr : AllReady s A)
include hd hr

theorem constant_ok (hkind : ty.kind ≠ .invalid) (h : (constant op ty x position).run s = .ok (.ok w, s')) :
    ∃ A', Makes [.take s.vars.size (x.source ty)] s A s' A' w ty s.vars.size := by
  unfold constant at h
  cases x with
  | value u => cases h
  | const c =>
    dsimp only at h
    cases hbits : constBits ty c with
    | none =>
      rw [hbits] at h
      cases h
    | some bits =>
      rw [hbits] at h
      obtain ⟨r, t, hop, hnew⟩ := Attempt.bind_ok h
      rw [Operand.source, hbits]
      exact (fetched_word hd hr hkind (Attempt.lift_ok hop)).takes hd hkind (Attempt.lift_ok hnew)

variable (hx : x.Refers s)
include hx

theorem indexOf_ok (h : (indexOf op v x position).run s = .ok (.ok r, s')) :
    ∃ B ity, Fetched s A s' B (x.source .i64) r ity ∧ ∃ width signed, ity.kind = .int width signed := by
  unfold indexOf at h
  cases x with
  | const c =>
    have hkind : Ty.i64.kind = .int .w64 true := rfl
    obtain ⟨B, hf⟩ := operandOf_ok hd hr hx (by rw [hkind]; exact nofun) h
    exact ⟨B, .i64, hf, .w64, true, hkind⟩
  | value j =>
    obtain ⟨q, t, huse, h1⟩ := Attempt.bind_ok h
    obtain ⟨rfl, u, y, rfl, hy, rfl⟩ := use_refers (fun w hw => hx w (by rw [hw])) huse
    obtain ⟨hint, h2⟩ := Attempt.check_ok h1
    obtain ⟨rfl, rfl⟩ := Attempt.pure_ok h2
    exact ⟨A, u.ty, fetched_cell hd hr hy, kind_of_isInt (hy.kind hd) (by simpa using hint)⟩

theorem ptrAdd_ok {scale : Int} {elem : Ty} (hy : Names s v y) (hptr : v.ty = .ptr elem)
    (hkind : ty.kind ≠ .invalid)
    (h : (ptrAdd op v y.ref ty x scale position).run s = .ok (.ok w, s')) :
    ∃ A', Makes [.make s.vars.size (.ptrAdd scale 0 1) v.cell (x.source .i64)] s A s' A' w ty
      s.vars.size := by
  obtain ⟨r, t, hindex, h1⟩ := Attempt.bind_ok h
  obtain ⟨B, ity, hf, width, signed, hik⟩ := indexOf_ok hd hr hx hindex
  have hp : B.HasTy y.ref v.ty := hf.progress.grows.hasTy (hy.hasTy hd)
  refine hf.makes hd hy (.ptrAdd ty y.ref r scale) rfl ⟨?_, ?_⟩ hkind h1
  · rw [hp.2, hptr]
    rfl
  · rw [hf.ty.2, hik]
    exact ⟨nofun, nofun, nofun⟩

end

/-! ### Accepted operations -/

section

variable (herr : s'.error = none) (hd : Drawn s A) (hr : AllReady s A)
include herr hd hr

theorem const_ok (h : const ty x position s = .ok (w, s')) :
    ∃ A', Makes [.take s.vars.size (x.source ty)] s A s' A' w ty s.vars.size := by
  obtain ⟨hscalar, h1⟩ := Attempt.check_ok (ready_ok (attempt_invalid_ok h herr))
  exact constant_ok hd hr (kind_ne_invalid_of_isScalar (by simpa using hscalar)) h1

theorem var_ok {v : Option Value} (hv : ∀ u, v = some u → Refers s u) (h : var v position s = .ok (w, s')) :
    ∃ A' u, v = some u ∧ Makes [.take s.vars.size (.cell u.cell)] s A s' A' w u.ty s.vars.size := by
  obtain ⟨r, t, huse, h1⟩ := Attempt.bind_ok (ready_ok (attempt_invalid_ok h herr))
  obtain ⟨rfl, u, y, rfl, hy, rfl⟩ := use_refers hv huse
  obtain ⟨A', hA'⟩ := (fetched_cell hd hr hy).takes hd (hy.kind hd) (Attempt.lift_ok h1)
  exact ⟨A', u, rfl, hA'⟩

variable (hv : Refers s v)
include hv

theorem copy_ok (h : copy v position s = .ok (w, s')) :
    ∃ A', Makes [.take s.vars.size (.cell v.cell)] s A s' A' w v.ty s.vars.size := by
  obtain ⟨y, hy, h1⟩ := applied_ok hv (attempt_invalid_ok h herr)
  exact (fetched_cell hd hr hy).takes hd (hy.kind hd) (Attempt.lift_ok h1)

theorem unary_ok {op : Op} (hop : op.isUnary = true) (h : unary op v position s = .ok (w, s')) :
    ∃ A', Makes [.make s.vars.size (.unary op v.ty.kind 0) v.cell (.cell v.cell)] s A s' A' w v.ty
      s.vars.size := by
  obtain ⟨y, hy, h1⟩ := applied_ok hv (attempt_invalid_ok h herr)
  obtain ⟨hcheck, h2⟩ := Attempt.check_ok h1
  have hkind := hy.kind hd
  exact (fetched_cell hd hr hy).makes hd hy (.unary op v.ty y.ref) rfl
    ⟨hkind, unaryType_ok hkind hop (by simpa using hcheck), (hy.hasTy hd).2⟩ hkind h2

theorem convert_ok (h : convert v ty position s = .ok (w, s')) :
    ∃ A', Makes [conversion s.vars.size ty v.ty v.cell] s A s' A' w ty s.vars.size := by
  obtain ⟨y, hy, h1⟩ := applied_ok hv (attempt_invalid_ok h herr)
  obtain ⟨hcheck, h2⟩ := Attempt.check_ok h1
  have hkind : ty.kind ≠ .invalid := by
    refine kind_ne_invalid_of_isScalar ?_
    by_contra hne
    exact hcheck (by simp [hne])
  have hf := fetched_cell hd hr hy
  rw [conversion]
  split at h2
  · rename_i heq
    rw [if_pos heq]
    exact (Ty.equal_iff.1 heq ▸ hf).takes hd hkind (Attempt.lift_ok h2)
  rename_i heq
  rw [if_neg heq]
  have hptr : ¬ (ty.kind = .ptr ∧ v.ty.kind ≠ .ptr) := by
    rintro ⟨ht, hvne⟩
    refine hcheck ?_
    have hv : v.ty.isPtr = false := by simpa [← isPtr_iff_kind] using hvne
    simp [isPtr_iff_kind.2 ht, hv]
  exact hf.makes hd hy (.convert ty v.ty y.ref) rfl ⟨hkind, hy.kind hd, hptr, hf.ty.2⟩ hkind h2

theorem field_ok {name : String} (h : field v name position s = .ok (w, s')) :
    ∃ A' elem f, v.ty = .ptr elem ∧ (fieldsOf elem).find? (fun f => f.name == name) = some f ∧
      Makes [.make s.vars.size (.ptrAdd 1 0 1) v.cell ((fieldOffset f).source .i64)] s A s' A' w
        (.ptr f.ty) s.vars.size := by
  obtain ⟨⟨f?, p⟩, t, hattempt, h1⟩ := bind_ok h
  have herrt : t.error = none := by
    cases f? with
    | none => exact Tame.error_eq_none (e := invalid .void) h1 herr
    | some f => exact Tame.error_eq_none h1 herr
  obtain ⟨elem, y, hy, hptr, h2⟩ := pointed_ok hv (attempt_ok hattempt herrt)
  dsimp only at h2
  cases hfind : (fieldsOf elem).find? fun f => f.name == name with
  | none =>
    rw [hfind] at h2
    cases h2
  | some f =>
    rw [hfind] at h2
    cases h2
    obtain ⟨A', hA'⟩ := ptrAdd_ok hd hr (refers_const s _) hy hptr (by simp [Ty.kind])
      (attempt_invalid_ok h1 herr)
    exact ⟨A', elem, f, hptr, hfind, hA'⟩

theorem loadAs_ok (h : loadAs op v position s = .ok (w, s')) : ∃ A' elem, v.ty = .ptr elem ∧
    Makes [.make s.vars.size (.load elem.kind 0) v.cell (.cell v.cell)] s A s' A' w elem s.vars.size := by
  obtain ⟨⟨ty, p⟩, t, hattempt, h1⟩ := bind_ok h
  dsimp only at h1
  have hop : ∀ t q, Tame (operation (.load t q) position) := fun t q => tame_operation (by trivial) _
  have herrt : t.error = none := Tame.error_eq_none h1 herr
  obtain ⟨rfl, y, hy, rfl, hptr, hvoid⟩ := pointee_ok hv (attempt_ok hattempt herrt)
  rw [hvoid] at h1
  obtain ⟨hscalar, h2⟩ := Attempt.check_ok (attempt_invalid_ok h1 herr)
  have hkind : ty.kind ≠ .invalid := kind_ne_invalid_of_isScalar (by simpa using hscalar)
  have hisPtr : (A.chart.ty y.ref).isPtr = true := by
    rw [(hy.hasTy hd).2, hptr]
    rfl
  obtain ⟨A', hA'⟩ := (fetched_cell hd hr hy).makes hd hy (.load ty y.ref) (c := .load ty.kind 0) rfl
    ⟨hisPtr, hkind⟩ hkind h2
  exact ⟨A', ty, hptr, hA'⟩

theorem diff_ok {q : Option Value} (hq : ∀ u, q = some u → Refers s u)
    (h : diff v q position s = .ok (w, s')) :
    ∃ A' elem scale u, v.ty = .ptr elem ∧ elem.size = .ok scale ∧ q = some u ∧
      Makes [.make s.vars.size (.ptrDiff scale 0 1) v.cell (.cell u.cell)] s A s' A' w .i64 s.vars.size := by
  obtain ⟨elem, y, hy, hptr, h1⟩ := pointed_ok hv (attempt_invalid_ok h herr)
  obtain ⟨r, t, huse, h2⟩ := Attempt.bind_ok h1
  obtain ⟨rfl, u, z, rfl, hz, rfl⟩ := use_refers hq huse
  obtain ⟨_, t, hsame, h3⟩ := Attempt.bind_ok h2
  obtain ⟨rfl, htys⟩ := same_ok hsame
  obtain ⟨scale, t, hsize, h4⟩ := Attempt.bind_ok h3
  obtain ⟨hscale, rfl⟩ := liftExcept_ok hsize
  have hptr' : ∀ {u z}, Names s u z → u.ty = v.ty → (A.chart.ty z.ref).isPtr = true := by
    intro u z hz heq
    rw [(hz.hasTy hd).2, heq, hptr]
    rfl
  obtain ⟨A', hA'⟩ := (fetched_cell hd hr hz).makes hd hy (.ptrDiff y.ref z.ref scale)
    (c := .ptrDiff scale 0 1) rfl ⟨hptr' hy rfl, hptr' hz htys.symm⟩
    (by simp [Operation.ty, Ty.kind, Ty.i64]; decide) h4
  exact ⟨A', elem, scale, u, hptr, hscale, rfl, hA'⟩

variable (hx : x.Refers s)
include hx

theorem assign_ok (h : assign v x position s = .ok (u, s')) :
    ∃ A', Draws [.assign v.cell (x.source v.ty)] s A s' A' ∧ s'.vars.size = s.vars.size := by
  obtain ⟨y, hy, h1⟩ := applied_ok hv (attempt_ok h herr)
  obtain ⟨r, t, hoperand, h2⟩ := Attempt.bind_ok h1
  obtain ⟨B, hf⟩ := operandOf_ok hd hr hx (hy.kind hd) hoperand
  have hset := Attempt.get_ok h2
  have hcell : v.var.getD 0 = v.cell := rfl
  rw [hcell] at hset
  cases hset
  have hheld : t.dead = false → B.Held B.chart.current B.top r := fun hlive => by
    rw [hf.current]
    exact hf.held (hf.dead ▸ hlive)
  have hstep := assign_step hf.progress.drawn hf.ready (hf.vars ▸ hy.var) (hy.ty ▸ hf.ty) hheld
  have hsize : (t.setRef v.cell r).vars.size = s.vars.size := by
    rw [Sketch.setRef, Array.size_modify, hf.vars]
  refine ⟨_, ⟨(hf.progress.trans hstep hd).congr fun n => ?_, ?_, fun n hn hlt => ?_, fun _ => hf.calm⟩, hsize⟩
  · show False ∨ n = v.cell ↔ n ∈ [v.cell]
    simp
  · cases hdead : s.dead with
    | true =>
      have hdead' : t.dead = true := hf.dead.trans hdead
      rw [point, point, hdead, show (t.setRef v.cell r).dead = true from hdead']
      exact laidAll_none _
    | false =>
      have hdead' : t.dead = false := hf.dead.trans hdead
      rw [point, point, hdead, show (t.setRef v.cell r).dead = false from hdead']
      refine laidAll_one ⟨r, B.top, (hf.fetches hdead).mono hstep.grows.ext, ?_, ?_⟩
      · rw [← hf.current]
        exact Sheet.push_item B _ _
      · rw [← Sheet.push_top (B.chart.adds_note v.cell r), ← hf.current]
        rfl
  · exact absurd (hsize ▸ hlt) (not_lt.2 hn)

theorem arith_ok {op : Op} (hop : op.isBinary = true) (h : arith op v x position s = .ok (w, s')) :
    ∃ A', Makes [.make s.vars.size (.binary op v.ty.kind 0 1) v.cell (x.source v.ty)] s A s' A' w v.ty
      s.vars.size := by
  obtain ⟨y, hy, h1⟩ := applied_ok hv (attempt_invalid_ok h herr)
  have hkind := hy.kind hd
  obtain ⟨r, t, hoperand, h2⟩ := Attempt.bind_ok h1
  obtain ⟨B, hf⟩ := operandOf_ok hd hr hx hkind hoperand
  obtain ⟨hcheck, h3⟩ := Attempt.check_ok h2
  have hl : B.HasTy y.ref v.ty := hf.progress.grows.hasTy (hy.hasTy hd)
  exact hf.makes hd hy (.binary op v.ty y.ref r) rfl
    ⟨hkind, binaryKind_ok hkind hop (by simpa using hcheck), hl.2, hf.ty.2⟩ hkind h3

theorem compare_ok {c : Cond} (hc : c.valid = true) (h : compare c v x position s = .ok (w, s')) :
    ∃ A', Makes [.make s.vars.size (.compare c v.ty.kind 0 1) v.cell (x.source v.ty)] s A s' A' w .bool
      s.vars.size := by
  obtain ⟨y, hy, h1⟩ := applied_ok hv (attempt_invalid_ok h herr)
  have hkind := hy.kind hd
  obtain ⟨r, t, hoperand, h2⟩ := Attempt.bind_ok h1
  obtain ⟨B, hf⟩ := operandOf_ok hd hr hx hkind hoperand
  obtain ⟨hcheck, h3⟩ := Attempt.check_ok h2
  have hl : B.HasTy y.ref v.ty := hf.progress.grows.hasTy (hy.hasTy hd)
  exact hf.makes hd hy (.compare c v.ty y.ref r) rfl
    ⟨hkind, compareKind_ok hc (by simpa using hcheck), hl.2, hf.ty.2⟩
    (by simp [Operation.ty, Ty.kind]) h3

theorem index_ok (h : index v x position s = .ok (w, s')) :
    ∃ A' elem scale, v.ty = .ptr elem ∧ elem.size = .ok scale ∧
      Makes [.make s.vars.size (.ptrAdd scale 0 1) v.cell (x.source .i64)] s A s' A' w v.ty s.vars.size := by
  obtain ⟨elem, y, hy, hptr, h1⟩ := pointed_ok hv (attempt_invalid_ok h herr)
  obtain ⟨scale, t, hsize, h2⟩ := Attempt.bind_ok h1
  obtain ⟨hscale, rfl⟩ := liftExcept_ok hsize
  obtain ⟨A', hA'⟩ := ptrAdd_ok hd hr hx hy hptr (hy.kind hd) h2
  exact ⟨A', elem, scale, hptr, hscale, hA'⟩

theorem offset_ok (h : offset v x position s = .ok (w, s')) :
    ∃ A', Makes [.make s.vars.size (.ptrAdd 1 0 1) v.cell (x.source .i64)] s A s' A' w v.ty s.vars.size := by
  obtain ⟨elem, y, hy, hptr, h1⟩ := pointed_ok hv (attempt_invalid_ok h herr)
  exact ptrAdd_ok hd hr hx hy hptr (hy.kind hd) h1

theorem element_ok (h : element v x position s = .ok (w, s')) :
    ∃ A' elem n scale, v.ty = .ptr (.array elem n) ∧ elem.size = .ok scale ∧
      Makes [.make s.vars.size (.ptrAdd scale 0 1) v.cell (x.source .i64)] s A s' A' w (.ptr elem)
        s.vars.size := by
  obtain ⟨⟨ty, p⟩, t, hattempt, h1⟩ := bind_ok h
  have herrt : t.error = none := by
    dsimp only at h1
    split at h1
    · exact Tame.error_eq_none h1 herr
    · exact Tame.error_eq_none (e := invalid .void) h1 herr
  obtain ⟨ty', y, hy, hptr, h2⟩ := pointed_ok hv (attempt_ok hattempt herrt)
  dsimp only at h2
  split at h2
  · rename_i elem n
    cases h2
    obtain ⟨scale, t, hsize, h3⟩ := bind_ok h1
    obtain ⟨hscale, rfl⟩ := lift_ok hsize
    obtain ⟨A', hA'⟩ := ptrAdd_ok hd hr hx hy hptr (by simp [Ty.kind]) (attempt_invalid_ok h3 herr)
    exact ⟨A', elem, n, scale, hptr, hscale, hA'⟩
  · cases h2

/-- The element is loaded from a pointer that is a variable of its own. -/
theorem elem_ok (h : elem v x position s = .ok (w, s')) :
    ∃ A' elem scale q t B, v.ty = .ptr elem ∧ elem.size = .ok scale ∧
      Makes [.make s.vars.size (.ptrAdd scale 0 1) v.cell (x.source .i64)] s A t B q v.ty s.vars.size ∧
      Makes [.make t.vars.size (.load elem.kind 0) q.cell (.cell q.cell)] t B s' A' w elem t.vars.size := by
  obtain ⟨⟨ty, p⟩, t, hattempt, h1⟩ := bind_ok h
  dsimp only at h1
  have hpointee := (attempt_cases hattempt).resolve_right fun ⟨hres, herrt⟩ => by
    obtain ⟨rfl, -⟩ := Prod.mk.inj hres
    exact herrt (Tame.error_eq_none (e := invalid .void) h1 herr)
  obtain ⟨rfl, y, hy, rfl, hptr, hvoid⟩ := pointee_ok hv hpointee
  rw [hvoid] at h1
  obtain ⟨scale, t, hsize, h2⟩ := bind_ok h1
  obtain ⟨hscale, ht⟩ := lift_ok hsize
  subst t
  obtain ⟨_, t, hinvalid, h3⟩ := bind_ok h2
  cases hinvalid
  obtain ⟨q, t, hattempt', hload⟩ := bind_ok h3
  have herrt : t.error = none := Tame.error_eq_none hload herr
  obtain ⟨B, hB⟩ := ptrAdd_ok hd hr hx hy hptr (hy.kind hd) (attempt_ok hattempt' herrt)
  obtain ⟨A', elem', hptr', hA'⟩ := loadAs_ok herr hB.progress.drawn hB.progress.ready hB.refers hload
  obtain rfl : elem' = ty := by
    rw [hB.value] at hptr'
    exact (Ty.ptr.inj (hptr.symm.trans hptr')).symm
  exact ⟨A', elem', scale, q, t, B, hptr, hscale, hB, hA'⟩

theorem store_ok (h : store v x position s = .ok (u, s')) :
    ∃ A' elem, v.ty = .ptr elem ∧ Draws [.store elem.kind v.cell (x.source elem)] s A s' A' ∧
      s'.vars.size = s.vars.size := by
  obtain ⟨elem, y, hy, hptr, h1⟩ := pointed_ok hv (attempt_ok h herr)
  obtain ⟨hscalar, h2⟩ := Attempt.check_ok h1
  have hkind : elem.kind ≠ .invalid := kind_ne_invalid_of_isScalar (by simpa using hscalar)
  obtain ⟨r, t, hoperand, h3⟩ := Attempt.bind_ok h2
  obtain ⟨B, hf⟩ := operandOf_ok hd hr hx hkind hoperand
  cases h3
  have hp : B.HasTy y.ref v.ty := hf.progress.grows.hasTy (hy.hasTy hd)
  have hisPtr : (B.chart.ty y.ref).isPtr = true := by
    rw [hp.2, hptr]
    rfl
  have hknown : t.dead = false → B.Knows B.chart.current B.top v.cell y.ref := fun hlive => by
    obtain ⟨g, rfl⟩ := hf.gen
    exact hf.ready.env hlive _ y trivial hy.var hy.inScope
  have hheld : t.dead = false →
      B.Held B.chart.current B.top y.ref ∧ B.Held B.chart.current B.top r := fun hlive => by
    refine ⟨(hknown hlive).held, ?_⟩
    rw [hf.current]
    exact hf.held (hf.dead ▸ hlive)
  have hstep := store_step position hf.progress.drawn hf.ready hisPtr hf.ty.2 hkind hheld
  have hall := (hf.progress.trans hstep hd).congr fun n => or_self_iff
  refine ⟨_, elem, hptr, draws_of_progress hall rfl (fun hlive => ?_) (fun n hn hlt => ?_) fun _ => hf.calm,
    congrArg Array.size hf.vars⟩
  · have hlive' : t.dead = false := hf.dead.trans hlive
    refine laidAll_one ⟨r, B.top, y.ref, (hf.fetches hlive).mono hstep.grows.ext, ?_, ?_, ?_⟩
    · rw [← hf.current]
      exact hstep.grows.ext.knows _ _ _ _ (hknown hlive')
    · rw [← hf.current]
      exact Sheet.push_item B _ _
    · rw [point, ← Sheet.push_top (B.chart.adds_store elem y.ref r), ← hf.current]
      simp only [hlive']
      rfl
  · exact absurd (hf.vars ▸ hlt) (not_lt.2 hn)

end

end Operations

end Describe

end Codesmith
