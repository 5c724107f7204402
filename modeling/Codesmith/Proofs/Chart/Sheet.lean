import Codesmith.Proofs.Chart.Carried

/-!
# Charts with variables

A sheet is a chart that also tells where the variables of a structured program are kept: between the
lines of its blocks stand notes, which say that a variable is kept in another value from there on, and
at every place it is known which values hold which variables. Blocks may be given up; control never gets
to them.

What is known has to be justified one item back, or on all edges that lead to a block. So everything that
is read is available, and along every run the values that are known hold the variables. A sheet need not be
strict, though: then only its blocks and the edges between them have to be in order.
-/

namespace Codesmith.Gen

/-- What stands in a block: a line, or the note that a variable is kept in a value from here on. -/
inductive Item
  | line (a : Act)
  | note (v : Nat) (x : Ref)

def Item.act? : Item → Option Act
  | line a => some a
  | note .. => none

namespace Chart

/-- The value that a value at the head of a block takes over on the edge from another block; all other
values stay. -/
def origin (c : Chart) (p l : Label) (x : Ref) : Ref :=
  if x ∈ (c.block l).phis then (c.carried? p x).getD x else x

theorem enter_apply (c : Chart) (p l : Label) (v : Ref → Word) (x : Ref) :
    c.enter p l v x = v (c.origin p l x) := by
  unfold enter origin
  split <;> rfl

theorem origin_of_notMem {c : Chart} {l : Label} {x : Ref} (h : x ∉ (c.block l).phis) (p : Label) :
    c.origin p l x = x :=
  if_neg h

end Chart

/-- A chart with what is known of the variables of a program. -/
structure Sheet where
  chart : Chart
  /-- The lines of each block, with the notes between them. -/
  items : Label → List Item
  /-- Before an item of a block, a variable is kept in a value. -/
  known : Label → Nat → Nat → Ref → Prop
  /-- The blocks that are given up. -/
  dead : Label → Prop
  /-- Only what is known may be read. -/
  strict : Prop

namespace Sheet

variable {a : Act} {its : List Item}

/-- The place behind the last item of a block. -/
def last (A : Sheet) (l : Label) : Nat :=
  (A.items l).length

/-- The number of lines of a block before an item. -/
def place (A : Sheet) (l : Label) (j : Nat) : Nat :=
  (((A.items l).take j).filterMap Item.act?).length

/-- Control may pass from one block to another. -/
def Edge (A : Sheet) (p l : Label) : Prop :=
  Graph.Edge A.chart.succs p l

/-- A line above an item of a block defines the value. -/
def Defined (A : Sheet) (l : Label) (j : Nat) (x : Ref) : Prop :=
  ∃ i a, i < j ∧ (A.items l)[i]? = some (.line a) ∧ a.out? = some x

/-- Before an item of a block, a variable is kept in a value, as far as the sheet is strict. -/
def Knows (A : Sheet) (l : Label) (j v : Nat) (x : Ref) : Prop :=
  A.strict → A.known l j v x

/-- The value can be read before an item of a block, as far as the sheet is strict. -/
def Held (A : Sheet) (l : Label) (j : Nat) (x : Ref) : Prop :=
  A.strict → A.Defined l j x ∨ ∃ v, A.known l j v x

theorem Knows.held {A : Sheet} {l : Label} {j v : Nat} {x : Ref} (h : A.Knows l j v x) : A.Held l j x :=
  fun hs => .inr ⟨v, h hs⟩

theorem Defined.held {A : Sheet} {l : Label} {j : Nat} {x : Ref} (h : A.Defined l j x) : A.Held l j x :=
  fun _ => .inl h

/-- On a strict sheet, everything that is known is justified, and only what is known is read. -/
structure Sound (A : Sheet) : Prop where
  code : ∀ l, (A.chart.block l).code = (A.items l).filterMap Item.act?
  blank : ∀ l, A.chart.size ≤ l → A.items l = []
  inside : ∀ l j v x, A.known l j v x → l < A.chart.size ∧ j ≤ A.last l ∧ A.chart.home x ≠ none
  within : ∀ l, A.dead l → l < A.chart.size
  start : ∀ v x, ¬ A.known Graph.entry 0 v x
  alive : ¬ A.dead Graph.entry
  line : ∀ l j a v x, (A.items l)[j]? = some (.line a) → A.known l (j + 1) v x →
    a.out? ≠ some x ∧ A.known l j v x
  note : ∀ l j w y v x, (A.items l)[j]? = some (.note w y) → A.known l (j + 1) v x →
    v = w ∧ x = y ∨ v ≠ w ∧ A.known l j v x
  noted : ∀ l j v x, ¬ A.dead l → (A.items l)[j]? = some (.note v x) → A.Held l j x
  reads : ∀ l j a, ¬ A.dead l → (A.items l)[j]? = some (.line a) → ∀ x ∈ a.reads, A.Held l j x
  exits : ∀ l e, ¬ A.dead l → (A.chart.block l).exit = some e → ∀ x ∈ e.reads, A.Held l (A.last l) x
  edge : ∀ p l v x, ¬ A.dead p → A.Edge p l → A.known l 0 v x →
    A.Knows p (A.last p) v (A.chart.origin p l x)
  buried : ∀ p l, A.Edge p l → A.dead l → A.dead p
  phi : ∀ l x, ¬ A.dead l → x ∈ (A.chart.block l).phis → ∃ v, A.known l 0 v x
  one : ∀ p l x, ¬ A.dead p → A.Edge p l → x ∈ (A.chart.block l).phis →
    (A.chart.incoming x).countP (fun e => e.source == (p : Int)) = 1
  each : ∀ l x e, x ∈ (A.chart.block l).phis → e ∈ A.chart.incoming x →
    A.Edge e.source.toNat l ∧ A.chart.ty e.ref = A.chart.ty x ∧ A.chart.home e.ref ≠ none

variable {A : Sheet} {l p : Label} {i j v : Nat} {x : Ref}

/-! ## Items and lines -/

theorem place_line (h : (A.items l)[j]? = some (.line a)) : A.place l (j + 1) = A.place l j + 1 := by
  simp [place, List.take_add_one, h, Item.act?]

theorem place_note {y : Ref} (h : (A.items l)[j]? = some (.note v y)) : A.place l (j + 1) = A.place l j := by
  simp [place, List.take_add_one, h, Item.act?]

theorem place_mono (h : i ≤ j) : A.place l i ≤ A.place l j :=
  ((List.take_prefix_take_left h).sublist.filterMap Item.act?).length_le

theorem place_lt (h : (A.items l)[i]? = some (.line a)) (hij : i < j) : A.place l i < A.place l j :=
  calc A.place l i < A.place l (i + 1) := by rw [place_line h]; exact Nat.lt_succ_self _
    _ ≤ A.place l j := place_mono hij

theorem getElem?_filterMap_act (h : its[j]? = some (.line a)) :
    (its.filterMap Item.act?)[((its.take j).filterMap Item.act?).length]? = some a := by
  obtain ⟨hlt, hj⟩ := List.getElem?_eq_some_iff.1 h
  have hsplit : its.filterMap Item.act? =
      (its.take j).filterMap Item.act? ++ a :: (its.drop (j + 1)).filterMap Item.act? := by
    conv_lhs => rw [← List.take_append_drop j its, List.drop_eq_getElem_cons hlt, hj]
    simp [Item.act?]
  rw [hsplit, List.getElem?_append_right le_rfl, Nat.sub_self]
  rfl

theorem exists_item (h : (its.filterMap Item.act?)[i]? = some a) :
    ∃ j : Nat, its[j]? = some (.line a) ∧ ((its.take j).filterMap Item.act?).length = i := by
  induction its generalizing i with
  | nil => simp at h
  | cons it its ih =>
    cases it with
    | note v x =>
      rw [List.filterMap_cons_none rfl] at h
      obtain ⟨j, hj, hlen⟩ := ih h
      refine ⟨j + 1, hj, ?_⟩
      rw [List.take_succ_cons, List.filterMap_cons_none rfl]
      exact hlen
    | line b =>
      cases i with
      | zero =>
        obtain rfl : b = a := by simpa [Item.act?] using h
        exact ⟨0, rfl, rfl⟩
      | succ i =>
        obtain ⟨j, hj, hlen⟩ := ih (i := i) (by simpa [Item.act?] using h)
        exact ⟨j + 1, hj, by simpa [Item.act?] using hlen⟩

section

variable (hA : A.Sound)
include hA

theorem Sound.line_code (h : (A.items l)[j]? = some (.line a)) :
    (A.chart.block l).code[A.place l j]? = some a := by
  rw [hA.code]
  exact getElem?_filterMap_act h

theorem Sound.length_eq (l : Label) : A.chart.length l = A.place l (A.last l) := by
  rw [Chart.length, hA.code, place, last, List.take_length]

/-! ## What is known is available -/

/-- What is known in a block is defined above or was known at its head. -/
theorem Sound.defined_or_known (hs : A.strict) (hl : ¬ A.dead l) (h : A.known l j v x) :
    A.Defined l j x ∨ ∃ w, A.known l 0 w x := by
  induction j generalizing v with
  | zero => exact .inr ⟨v, h⟩
  | succ j ih =>
    have hlift : A.Defined l j x ∨ (∃ w, A.known l 0 w x) →
        A.Defined l (j + 1) x ∨ ∃ w, A.known l 0 w x :=
      Or.imp_left fun ⟨i, a, hi, ha⟩ => ⟨i, a, hi.trans (Nat.lt_succ_self j), ha⟩
    have hj : j < (A.items l).length := (hA.inside l _ v x h).2.1
    have hitem := List.getElem?_eq_getElem hj
    cases hit : (A.items l)[j] with
    | line a => exact hlift (ih (hA.line l j a v x (hit ▸ hitem) h).2)
    | note w y =>
      rcases hA.note l j w y v x (hit ▸ hitem) h with ⟨-, rfl⟩ | ⟨-, h⟩
      · rcases hA.noted l j w x hl (hit ▸ hitem) hs with hdef | ⟨w', hw⟩
        · exact hlift (.inl hdef)
        · exact hlift (ih hw)
      · exact hlift (ih h)

theorem Sound.not_dead (hl : Graph.Reaches A.chart.succs l) : ¬ A.dead l := by
  obtain ⟨vs, h⟩ := hl
  induction h with
  | entry => exact hA.alive
  | step _ e ih => exact fun hdead => ih (hA.buried _ _ e hdead)

theorem Sound.home_of_defined (hc : A.chart.Consistent) (h : A.Defined l j x) :
    ∃ i < A.place l j, A.chart.home x = some ⟨l, some i⟩ := by
  obtain ⟨i, a, hi, ha, hx⟩ := h
  exact ⟨A.place l i, place_lt ha hi, hc.out l _ a x (hA.line_code ha) hx⟩

/-- What is known at the head of a block is a value at its head, or its home lies on every way that has
led to the block. -/
theorem Sound.mem_trail (hs : A.strict) (hc : A.chart.Consistent) {vs : List Label}
    (h : Graph.Trail A.chart.succs vs l) (hx : A.known l 0 v x) : x ∈ (A.chart.block l).phis ∨
      ∃ us q, vs = l :: us ∧ A.chart.home x = some q ∧ q.block ∈ us := by
  induction h generalizing v with
  | entry => exact absurd hx (hA.start v x)
  | @step vs p l h e ih =>
    by_cases hphi : x ∈ (A.chart.block l).phis
    · exact .inl hphi
    have hp : ¬ A.dead p := hA.not_dead ⟨vs, h⟩
    have hk := hA.edge p l v x hp e hx hs
    rw [Chart.origin_of_notMem hphi] at hk
    refine .inr ?_
    rcases hA.defined_or_known hs hp hk with hdef | ⟨w, hw⟩
    · obtain ⟨i, -, hq⟩ := hA.home_of_defined hc hdef
      exact ⟨vs, _, rfl, hq, h.mem_self⟩
    · rcases ih hw with hphi' | ⟨us, q, rfl, hq, hmem⟩
      · exact ⟨vs, _, rfl, (hc.phi p x).1 hphi', h.mem_self⟩
      · exact ⟨_, q, rfl, hq, List.mem_cons_of_mem p hmem⟩

theorem Sound.available_head (hs : A.strict) (hc : A.chart.Consistent) (hl : Graph.Reaches A.chart.succs l)
    (hx : A.known l 0 v x) : A.chart.Available l 0 x := by
  by_cases hphi : x ∈ (A.chart.block l).phis
  · exact ⟨_, (hc.phi l x).1 hphi, hl, .inl ⟨rfl, nofun⟩⟩
  -- On the first trail to the block the home comes before it, so the home is another block.
  obtain ⟨us, ht, hnot⟩ := hl.first
  obtain ⟨us', q, heq, hq, hmem⟩ := (hA.mem_trail hs hc ht hx).resolve_left hphi
  obtain rfl := (List.cons.inj heq).2
  refine ⟨q, hq, ht.reaches (List.mem_cons_of_mem l hmem), .inr ⟨fun he => hnot (he ▸ hmem), ?_⟩⟩
  intro vs hvs
  obtain ⟨ws, q', rfl, hq', hmem'⟩ := (hA.mem_trail hs hc hvs hx).resolve_left hphi
  cases hq.symm.trans hq'
  exact List.mem_cons_of_mem l hmem'

/-- What can be read is available. -/
theorem Sound.available (hs : A.strict) (hc : A.chart.Consistent) (hl : Graph.Reaches A.chart.succs l)
    (hx : A.Held l j x) : A.chart.Available l (A.place l j) x := by
  have hcases : A.Defined l j x ∨ ∃ w, A.known l 0 w x := by
    rcases hx hs with hdef | ⟨v, hx⟩
    · exact .inl hdef
    · exact hA.defined_or_known hs (hA.not_dead hl) hx
  rcases hcases with hdef | ⟨w, hw⟩
  · obtain ⟨i, hi, hq⟩ := hA.home_of_defined hc hdef
    exact ⟨_, hq, hl, .inl ⟨rfl, fun k hk => Option.some.inj hk ▸ hi⟩⟩
  · exact (hA.available_head hs hc hl hw).mono (Nat.zero_le _)

theorem Sound.joins (hstrict : A.strict) (hc : A.chart.Consistent) (hl : Graph.Reaches A.chart.succs l)
    (hx : x ∈ (A.chart.block l).phis) : A.chart.Joins l x := by
  refine ⟨fun p hp e => hA.one p l x (hA.not_dead hp) e hx, fun e he hp => ?_⟩
  obtain ⟨hedge, hty, -⟩ := hA.each l x e hx he
  refine ⟨hedge, hty, ?_⟩
  obtain ⟨p, hs⟩ := Int.eq_ofNat_of_zero_le (hc.source x e he).1
  rw [hs, Int.toNat_natCast] at hp hedge ⊢
  obtain ⟨v, hv⟩ := hA.phi l x (hA.not_dead hl) hx
  have hk := hA.edge p l v x (hA.not_dead hp) hedge hv hstrict
  -- The edge brings one value only, so it is this one.
  obtain ⟨e', -, hfilter, hfind⟩ := Chart.exists_of_countP_eq_one (hA.one p l x (hA.not_dead hp) hedge hx)
  have hmem : e ∈ (A.chart.incoming x).filter fun e => e.source == (p : Int) :=
    List.mem_filter.2 ⟨he, by simp [hs]⟩
  rw [hfilter] at hmem
  obtain rfl := List.mem_singleton.1 hmem
  have horigin : A.chart.origin p l x = e.ref := by
    simp only [Chart.origin, if_pos hx, Chart.carried?, hfind]
    rfl
  rw [horigin] at hk
  rw [hA.length_eq]
  exact hA.available hstrict hc hp (Knows.held fun _ => hk)

/-- A chart whose reached blocks all end is well-formed. -/
theorem Sound.wellFormed (hs : A.strict) (hc : A.chart.Consistent)
    (hends : ∀ l, Graph.Reaches A.chart.succs l → (A.chart.block l).exit ≠ none) : A.chart.WellFormed where
  ended := hends
  joins l hl x hx := hA.joins hs hc hl hx
  lines l hl i a ha x hx := by
    rw [hA.code] at ha
    obtain ⟨j, hj, rfl⟩ := exists_item ha
    exact hA.available hs hc hl (hA.reads l j a (hA.not_dead hl) hj x hx)
  exits l hl e he x hx := by
    rw [hA.length_eq]
    exact hA.available hs hc hl (hA.exits l e (hA.not_dead hl) he x hx)

end

/-! ## Runs -/

/-- A run stands before an item of a block of a strict sheet, and every value that is known holds its variable. -/
structure Stands (A : Sheet) (l : Label) (j : Nat) (cells : Nat → Word) (s : Chart.State) : Prop where
  block : s.block = l
  place : s.place = A.place l j
  alive : ¬ A.dead l
  values : ∀ v x, A.known l j v x → s.values x = cells v
  strict : A.strict

variable {cells : Nat → Word} {s : Chart.State} {args : Array Word}

section

variable (hs : A.Stands l j cells s)
include hs

theorem Stands.value (h : A.Knows l j v x) : s.values x = cells v :=
  hs.values v x (h hs.strict)

/-- A note is passed without a step. -/
theorem Stands.note (hA : A.Sound) (hn : (A.items l)[j]? = some (.note v x)) :
    A.Stands l (j + 1) (Function.update cells v (s.values x)) s where
  block := hs.block
  place := hs.place.trans (place_note hn).symm
  alive := hs.alive
  values w y hy := by
    rcases hA.note l j v x w y hn hy with ⟨rfl, rfl⟩ | ⟨hne, hy⟩
    · rw [Function.update_self]
    · rw [Function.update_of_ne hne]
      exact hs.values w y hy
  strict := hs.strict

theorem Stands.code (hA : A.Sound) (ha : (A.items l)[j]? = some (.line a)) :
    (A.chart.block s.block).code[s.place]? = some a := by
  rw [hs.block, hs.place]
  exact hA.line_code ha

theorem Stands.step_line (args : Array Word) (hA : A.Sound) (ha : (A.items l)[j]? = some (.line a)) :
    A.chart.step args s =
      match a.run args s.values s.memory with
      | .error f => .fault f s.memory
      | .ok (v, m) => .next ⟨s.block, s.place + 1, v, m⟩ := by
  rewrite [Chart.step, hs.code hA ha]
  rfl

/-- A line is executed in one step. -/
theorem Stands.line (hA : A.Sound) (ha : (A.items l)[j]? = some (.line a)) {values : Ref → Word} {m : Memory}
    (hrun : a.run args s.values s.memory = .ok (values, m)) :
    A.Stands l (j + 1) cells ⟨s.block, s.place + 1, values, m⟩ where
  block := hs.block
  place := by rw [place_line ha, ← hs.place]
  alive := hs.alive
  values w y hy := by
    obtain ⟨hne, hy⟩ := hA.line l j a w y ha hy
    exact (Act.run_of_ne hrun hne).trans (hs.values w y hy)
  strict := hs.strict

theorem Stands.step_exit (hA : A.Sound) {e : Exit} (hj : j = A.last l) (he : (A.chart.block l).exit = some e) :
    A.chart.step args s = A.chart.leave s e := by
  have hend : (A.chart.block s.block).code[s.place]? = none := by
    rw [hs.block, hs.place, hj, ← hA.length_eq]
    exact List.getElem?_eq_none le_rfl
  rw [Chart.step, hend, hs.block, he]

theorem Stands.go (hA : A.Sound) (hj : j = A.last l) {t : Label} (ht : A.Edge l t) :
    A.Stands t 0 cells (A.chart.go s t) where
  block := Int.toNat_natCast t
  place := rfl
  alive := fun hdead => hs.alive (hA.buried l t ht hdead)
  values w y hy := by
    simp only [Chart.go, Int.toNat_natCast, Chart.enter_apply, hs.block]
    exact hs.value (hj ▸ hA.edge l t w y hs.alive ht hy)
  strict := hs.strict

end

end Sheet

end Codesmith.Gen
