import Codesmith.Proofs.Chart.Draw

/-!
# What stays while a sheet is drawn

Steps on a sheet work on some of its blocks and leave the others as they are. `Sheet.Grows` says which
blocks were concerned since some earlier time; blocks that were made since then do not matter. So what
was found out about a block stays true as long as nobody works on it.
-/

namespace Codesmith.Gen

theorem ChartBlock.eq_of {b b' : ChartBlock} (hphis : b.phis = b'.phis) (hcode : b.code = b'.code)
    (hexit : b.exit = b'.exit) : b = b' := by
  cases b
  cases b'
  simp_all

namespace Sheet

variable {K : Nat → Ref → Prop} {xs : List Ref} {e : Exit}

/-- The second sheet comes of the first. Blocks in `T` were written to or left, blocks in `J` were entered
or more became known of them, and edges were drawn to blocks in `U`. Of the first `n` variables only those
in `V` were noted anew. -/
structure Grows (n : Nat) (V : Nat → Prop) (T J U : Label → Prop) (A B : Sheet) : Prop where
  ext : A.Extends B
  sig : B.chart.sig = A.chart.sig
  size : A.chart.size ≤ B.chart.size
  current : B.chart.current < A.chart.size → B.chart.current = A.chart.current ∨ J B.chart.current
  home : ∀ x, A.chart.home x ≠ none →
    B.chart.home x = A.chart.home x ∧ B.chart.ty x = A.chart.ty x
  kept : ∀ l, l < A.chart.size → ¬ T l → ¬ J l →
    B.chart.block l = A.chart.block l ∧ B.items l = A.items l
  phis : ∀ l, l < A.chart.size → ¬ J l → (B.chart.block l).phis = (A.chart.block l).phis
  alive : ∀ l, l < A.chart.size → ¬ J l → B.dead l → A.dead l
  ended : ∀ l e, (A.chart.block l).exit = some e → B.dead l → A.dead l
  points : ∀ l j v x, l < A.chart.size → ¬ J l → j ≤ A.last l → B.known l j v x → A.known l j v x
  edges : ∀ p t, t < A.chart.size → ¬ U t → ¬ B.dead p → B.Edge p t → A.Edge p t
  notes : ∀ l (j : Nat) v x, (B.items l)[j]? = some (.note v x) → v < n →
    V v ∨ (A.items l)[j]? = some (.note v x)

variable {A B C : Sheet} {n : Nat} {V V' : Nat → Prop} {T T' J J' U U' : Label → Prop} {l t : Label}
  {it : Item} {c : Chart}

theorem Extends.last_le (h : A.Extends B) (l : Label) : A.last l ≤ B.last l :=
  (h.items l).length_le

theorem Grows.refl (A : Sheet) : A.Grows n V T J U A where
  ext := .refl A
  sig := rfl
  size := le_rfl
  current _ := .inl rfl
  home _ _ := ⟨rfl, rfl⟩
  kept _ _ _ _ := ⟨rfl, rfl⟩
  phis _ _ _ := rfl
  alive _ _ _ h := h
  ended _ _ _ h := h
  points _ _ _ _ _ _ _ h := h
  edges _ _ _ _ _ h := h
  notes _ _ _ _ h _ := .inr h

theorem grows_self (A : Sheet) :
    A.Grows 0 (fun _ => False) (fun _ => False) (fun _ => False) (fun _ => False) A :=
  .refl A

/-- Only blocks that the first sheet has matter. -/
theorem Grows.trans {n' : Nat} (h : A.Grows n V T J U B) (h' : B.Grows n' V' T' J' U' C)
    (hn : n ≤ n') (hV : ∀ v, v < n → V' v → V v) (hT : ∀ l, l < A.chart.size → T' l → T l ∨ J l)
    (hJ : ∀ l, l < A.chart.size → J' l → J l) (hU : ∀ t, t < A.chart.size → U' t → U t) :
    A.Grows n V T J U C where
  ext := h.ext.trans h'.ext
  sig := h'.sig.trans h.sig
  size := h.size.trans h'.size
  current hlt := by
    rcases h'.current (hlt.trans_le h.size) with heq | hj
    · rw [heq] at hlt ⊢
      exact h.current hlt
    · exact .inr (hJ _ hlt hj)
  home x hx := by
    obtain ⟨hhome, hty⟩ := h.home x hx
    obtain ⟨hhome', hty'⟩ := h'.home x (hhome ▸ hx)
    exact ⟨hhome'.trans hhome, hty'.trans hty⟩
  kept l hl hTl hJl := by
    obtain ⟨hb, hi⟩ := h.kept l hl hTl hJl
    obtain ⟨hb', hi'⟩ := h'.kept l (hl.trans_le h.size) (fun ht => (hT l hl ht).elim hTl hJl)
      (fun hj => hJl (hJ l hl hj))
    exact ⟨hb'.trans hb, hi'.trans hi⟩
  phis l hl hJl := (h'.phis l (hl.trans_le h.size) fun hj => hJl (hJ l hl hj)).trans (h.phis l hl hJl)
  alive l hl hJl hd := h.alive l hl hJl (h'.alive l (hl.trans_le h.size) (fun hj => hJl (hJ l hl hj)) hd)
  ended l e he hd := h.ended l e he (h'.ended l e (h.ext.exit l e he).1 hd)
  points l j v x hl hJl hj hk := h.points l j v x hl hJl hj
    (h'.points l j v x (hl.trans_le h.size) (fun hj => hJl (hJ l hl hj)) (hj.trans (h.ext.last_le l)) hk)
  edges p t ht hUt hp e := h.edges p t ht hUt (fun hd => hp (h'.ext.dead p hd))
    (h'.edges p t (ht.trans_le h.size) (fun hu => hUt (hU t ht hu)) hp e)
  notes l j v x hitem hv := by
    rcases h'.notes l j v x hitem (hv.trans_le hn) with hV' | hitem
    · exact .inl (hV v hv hV')
    · exact h.notes l j v x hitem hv

theorem Grows.mono (h : A.Grows n V T J U B) (hV : ∀ v, v < n → V v → V' v)
    (hT : ∀ l, l < A.chart.size → T l → T' l ∨ J' l) (hJ : ∀ l, l < A.chart.size → J l → J' l)
    (hU : ∀ t, t < A.chart.size → U t → U' t) : A.Grows n V' T' J' U' B :=
  (Grows.refl A).trans h le_rfl hV hT hJ hU

/-! ## Steps -/

theorem grows_push (hc : A.chart.Adds it c) (hexit : A.chart.Unended)
    (hV : ∀ v x, it = .note v x → v < n → V v) :
    A.Grows n V (· = A.chart.current) (fun _ => False) (fun _ => False) (A.push it c) where
  ext := extends_push hexit hc
  sig := hc.sig
  size := hc.size.ge
  current _ := .inl hc.current
  home := hc.home
  kept l _ hl _ := by
    refine ⟨?_, by rw [push_items, if_neg hl, List.append_nil]⟩
    refine ChartBlock.eq_of (hc.phis l) ?_ (hc.exit l)
    refine (hc.code l).trans ?_
    rw [if_neg hl, List.append_nil]
  phis l _ _ := hc.phis l
  alive _ _ _ h := h
  ended _ _ _ h := h
  points l j v x _ _ hj := by
    rintro (h | ⟨rfl, rfl, -⟩)
    · exact h
    · exact absurd hj (Nat.not_succ_le_self _)
  edges p t _ _ _ h := by
    rw [Edge] at h ⊢
    exact (congrArg (Graph.Edge · p t) hc.succs).to_iff.1 h
  notes l j v x hitem hv := by
    rcases push_getElem?.1 hitem with hitem | ⟨-, -, rfl⟩
    · exact .inr hitem
    · exact .inl (hV v x rfl hv)

theorem grows_newBlock (A : Sheet) : A.Grows n V T J U A.newBlock where
  ext := extends_newBlock A
  sig := rfl
  size := Nat.le_succ _
  current _ := .inl rfl
  home _ _ := ⟨rfl, rfl⟩
  kept _ _ _ _ := ⟨rfl, rfl⟩
  phis _ _ _ := rfl
  alive _ _ _ h := h
  ended _ _ _ h := h
  points _ _ _ _ _ _ _ h := h
  edges _ _ _ _ _ h := h
  notes _ _ _ _ h _ := .inr h

theorem grows_enter (hc : A.chart.Opens l xs c) : A.Grows n V T (· = l) U (A.enter l K c) where
  ext := extends_enter hc
  sig := hc.sig
  size := hc.size.ge
  current _ := .inr hc.current
  home := hc.home
  kept k _ _ hk := ⟨hc.other k hk, rfl⟩
  phis k _ hk := congrArg ChartBlock.phis (hc.other k hk)
  alive _ _ _ h := h
  ended _ _ _ h := h
  points k j v x _ hk _ := by
    rintro (h | ⟨rfl, -⟩)
    · exact h
    · exact absurd rfl hk
  edges p t _ _ _ h := by
    rw [Edge] at h ⊢
    exact (congrArg (Graph.Edge · p t) hc.succs).to_iff.1 h
  notes _ _ _ _ h _ := .inr h

theorem grows_bury (hl : (A.chart.block l).exit = none) : A.Grows n V T (· = l) U (A.bury l) where
  ext := extends_bury A l
  sig := rfl
  size := le_rfl
  current _ := .inr rfl
  home _ _ := ⟨rfl, rfl⟩
  kept _ _ _ _ := ⟨rfl, rfl⟩
  phis _ _ _ := rfl
  alive _ _ hk h := h.resolve_right hk
  ended k e he h := by
    refine h.resolve_right ?_
    rintro rfl
    cases hl.symm.trans he
  points _ _ _ _ _ _ _ h := h
  edges _ _ _ _ _ h := h
  notes _ _ _ _ h _ := .inr h

/-- The edges from a block that is given up do not matter. -/
theorem grows_leave (hc : A.chart.Exits e c) (hexit : A.chart.Unended) : A.Grows n V (· = A.chart.current) J
      (fun t => ¬ A.dead A.chart.current ∧ (t : Int) ∈ e.targets) (A.leave c) where
  ext := extends_leave hc hexit
  sig := hc.sig
  size := hc.size.ge
  current _ := .inl hc.current
  home x _ := ⟨congrFun hc.home x, congrFun hc.ty x⟩
  kept l _ hl _ := by
    refine ⟨ChartBlock.eq_of (hc.phis l) (hc.code l) ((hc.exit l).trans (if_neg hl)), rfl⟩
  phis l _ _ := hc.phis l
  alive _ _ _ h := h
  ended _ _ _ h := h
  points _ _ _ _ _ _ _ h := h
  edges p t _ ht hp h := by
    rw [Edge, show (A.leave c).chart = c from rfl, hc.edge] at h
    split at h
    · rename_i heq
      exact absurd ⟨heq ▸ hp, h⟩ ht
    · exact h
  notes _ _ _ _ h _ := .inr h

theorem grows_widen (A : Sheet) (R : Label → Prop) (K : Nat → Ref → Prop) :
    A.Grows n V T R U (A.widen R K) where
  ext := extends_widen A R K
  sig := rfl
  size := le_rfl
  current _ := .inl rfl
  home _ _ := ⟨rfl, rfl⟩
  kept _ _ _ _ := ⟨rfl, rfl⟩
  phis _ _ _ := rfl
  alive _ _ _ h := h
  ended _ _ _ h := h
  points l j v x _ hl _ := by
    rintro (h | ⟨h, -⟩)
    · exact h
    · exact absurd h hl
  edges _ _ _ _ _ h := h
  notes _ _ _ _ h _ := .inr h

/-! ## What stays -/

theorem Grows.pending (h : A.Grows n V T J U B) (hB : B.Sound) (ht : A.Pending t) (hT : ¬ T t)
    (hJ : ¬ J t) : B.Pending t := by
  obtain ⟨hblock, hitems⟩ := h.kept t ht.lt hT hJ
  exact {
    lt := ht.lt.trans_le h.size
    ne := ht.ne
    items := hitems.trans ht.items
    phis := hblock ▸ ht.phis
    exit := hblock ▸ ht.exit
    unknown := fun j v x hk => by
      have hj := (hB.inside t j v x hk).2.1
      rw [last, hitems] at hj
      exact ht.unknown j v x (h.points t j v x ht.lt hJ hj hk)
    alive := fun hd => ht.alive (h.alive t ht.lt hJ hd) }

/-- A block that was just made. -/
theorem pending_newBlock (hA : A.Sound) (hcons : A.chart.Consistent) : A.newBlock.Pending A.chart.size where
  lt := Nat.lt_succ_self _
  ne := Nat.ne_of_gt hcons.pos
  items := hA.blank _ le_rfl
  phis := by
    show (A.chart.block A.chart.size).phis = []
    rw [hcons.beyond _ le_rfl]
  exit := by
    show (A.chart.block A.chart.size).exit = none
    rw [hcons.beyond _ le_rfl]
  unknown j v x h := absurd (hA.inside _ j v x h).1 (lt_irrefl _)
  alive h := absurd (hA.within _ h) (lt_irrefl _)

/-! ## Unfinished blocks -/

/-- Nobody works on the block, and it has neither ended nor been given up. -/
def Idle (A : Sheet) (l : Label) : Prop :=
  l < A.chart.size ∧ l ≠ A.chart.current ∧ ¬ A.dead l ∧ (A.chart.block l).exit = none

/-- The current block has ended or is given up. -/
def Left (A : Sheet) : Prop :=
  ¬ A.dead A.chart.current → (A.chart.block A.chart.current).exit ≠ none

theorem idle_push (hc : A.chart.Adds it c) (h : (A.push it c).Idle l) : A.Idle l := by
  obtain ⟨hlt, hne, hdead, hexit⟩ := h
  exact ⟨hc.size ▸ hlt, hc.current ▸ hne, hdead, (hc.exit l).symm.trans hexit⟩

theorem idle_newBlock (h : A.newBlock.Idle l) : A.Idle l ∨ l = A.chart.size := by
  obtain ⟨hlt, hrest⟩ := h
  rcases Nat.lt_succ_iff_lt_or_eq.1 hlt with hlt | heq
  · exact .inl ⟨hlt, hrest⟩
  · exact .inr heq

theorem idle_leave (hc : A.chart.Exits e c) (h : (A.leave c).Idle l) : A.Idle l := by
  obtain ⟨hlt, hne, hdead, hexit⟩ := h
  change l ≠ c.current at hne
  rw [hc.current] at hne
  exact ⟨hc.size ▸ hlt, hne, hdead, ((hc.exit l).trans (if_neg hne)).symm.trans hexit⟩

theorem left_leave (hc : A.chart.Exits e c) : (A.leave c).Left := by
  intro _
  show (c.block c.current).exit ≠ none
  rw [hc.exit, if_pos hc.current]
  exact nofun

theorem idle_enter (hc : A.chart.Opens t xs c) (hleft : A.Left) (h : (A.enter t K c).Idle l) :
    l ≠ t ∧ A.Idle l := by
  obtain ⟨hlt, hne, hdead, hexit⟩ := h
  change l ≠ c.current at hne
  change (c.block l).exit = none at hexit
  rw [hc.current] at hne
  rw [hc.other l hne] at hexit
  refine ⟨hne, hc.size ▸ hlt, ?_, hdead, hexit⟩
  rintro rfl
  exact hleft hdead hexit

theorem idle_bury (hleft : A.Left) (h : (A.bury t).Idle l) : l ≠ t ∧ A.Idle l := by
  obtain ⟨hlt, hne, hdead, hexit⟩ := h
  have hdead' : ¬ A.dead l := fun hd => hdead (.inl hd)
  refine ⟨hne, hlt, ?_, hdead', hexit⟩
  rintro rfl
  exact hleft hdead' hexit

/-! ## Reached blocks -/

/-- Control gets to every block that is not given up and that is the current one or has ended. -/
def Reached (A : Sheet) : Prop :=
  ∀ l, ¬ A.dead l → l = A.chart.current ∨ (A.chart.block l).exit ≠ none →
    Graph.Reaches A.chart.succs l

theorem Reached.push (h : A.Reached) (hc : A.chart.Adds it c) : (A.push it c).Reached := by
  intro l hl hcases
  change l = c.current ∨ (c.block l).exit ≠ none at hcases
  rw [hc.current, hc.exit] at hcases
  show Graph.Reaches c.succs l
  rw [hc.succs]
  exact h l hl hcases

theorem Reached.enter (h : A.Reached) (hc : A.chart.Opens t xs c) {p : Label} (hp : ¬ A.dead p)
    (hedge : A.Edge p t) : (A.enter t K c).Reached := by
  have hold : ∀ l, ¬ A.dead l → (A.chart.block l).exit ≠ none → Graph.Reaches A.chart.succs l :=
    fun l hl hexit => h l hl (.inr hexit)
  have hpexit : (A.chart.block p).exit ≠ none := fun hnone => edge_of_exit_eq_none hnone t hedge
  intro l hl hcases
  show Graph.Reaches c.succs l
  rw [hc.succs]
  by_cases heq : l = t
  · exact heq ▸ (hold p hp hpexit).step hedge
  · refine hold l hl ?_
    change l = c.current ∨ (c.block l).exit ≠ none at hcases
    rw [hc.current, hc.other l heq] at hcases
    exact hcases.resolve_left heq

theorem Reached.bury (h : A.Reached) : (A.bury t).Reached := by
  intro l hl hcases
  have hne : l ≠ t := fun heq => hl (.inr heq)
  exact h l (fun hd => hl (.inl hd)) (.inr (hcases.resolve_left hne))

theorem Reached.leave (h : A.Reached) (hc : A.chart.Exits e c)
    (hexit : A.chart.Unended) : (A.leave c).Reached := by
  intro l hl hcases
  refine (h l hl ?_).mono fun a b he => (hc.edge a b).2 ?_
  · change l = c.current ∨ (c.block l).exit ≠ none at hcases
    rw [hc.current, hc.exit] at hcases
    by_cases heq : l = A.chart.current
    · exact .inl heq
    · rw [if_neg heq] at hcases
      exact hcases
  · rw [if_neg]
    · exact he
    · rintro rfl
      exact edge_of_exit_eq_none hexit b he

end Sheet

end Codesmith.Gen
