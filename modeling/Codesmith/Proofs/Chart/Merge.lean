import Codesmith.Proofs.Chart.Growth

/-!
# Joins on sheets

A block where edges meet gets a value for each variable that comes in different values, and the value
joins those. The head of a loop is entered with the one edge that is known; the edges back to it bring
their values when they are drawn.
-/

namespace Codesmith.Gen

/-- A value at the head of a block that is kept for a variable, with what it joins. -/
structure Junction where
  var : Nat
  value : Ref
  ty : Ty
  incoming : List EdgeValue

namespace Chart

/-- The chart with a value at the head of a block that joins others. -/
def openPhi (c : Chart) (l : Label) (x : Ref) (t : Ty) (es : List EdgeValue) : Chart :=
  es.foldl (fun c e => c.join x e.source e.ref) (c.phi x l t)

/-- One chart has gone on with a block and made values at its head. -/
structure Opening (c : Chart) (l : Label) (ws : List Junction) (c' : Chart) : Prop where
  opens : c.Opens l (ws.map Junction.value) c'
  consistent : c'.Consistent
  incoming : ∀ w ∈ ws, c'.incoming w.value = w.incoming
  ty : ∀ w ∈ ws, c'.ty w.value = w.ty

variable {c c' : Chart} {l : Label} {x : Ref} {t : Ty} {es : List EdgeValue} {ws : List Junction}

theorem foldl_join (c : Chart) (x : Ref) (es : List EdgeValue) :
    es.foldl (fun c e => c.join x e.source e.ref) c =
      { c with incoming := Function.update c.incoming x (c.incoming x ++ es) } := by
  induction es generalizing c with
  | nil => simp
  | cons e es ih =>
    rw [List.foldl_cons, ih]
    simp [join, Function.update_idem]

theorem openPhi_eq (c : Chart) (l : Label) (x : Ref) (t : Ty) (es : List EdgeValue) : c.openPhi l x t es =
      { c.phi x l t with incoming := Function.update c.incoming x (c.incoming x ++ es) } :=
  foldl_join _ _ _

theorem consistent_foldl_join (es : List EdgeValue) (hc : c.Consistent)
    (hx : c.home x = some ⟨l, none⟩) (hes : ∀ e ∈ es, 0 ≤ e.source ∧ e.source < c.size) :
    (es.foldl (fun c e => c.join x e.source e.ref) c).Consistent := by
  induction es generalizing c with
  | nil => exact hc
  | cons e es ih =>
    have he := hes e List.mem_cons_self
    exact ih (hc.join hx he) hx fun e' he' => hes e' (List.mem_cons_of_mem e he')

theorem opening_setBlock (hc : c.Consistent) (hl : l < c.size) (h : (c.block l).phis = []) :
    c.Opening l [] (c.setBlock l) where
  opens := opens_setBlock h
  consistent := hc.setBlock hl
  incoming _ h := absurd h List.not_mem_nil
  ty _ h := absurd h List.not_mem_nil

/-- One more value is made at the head of a block. -/
theorem Opening.snoc (h : c.Opening l ws c') {w : Junction} (hx : c'.home w.value = none)
    (h0 : 0 ≤ w.value) (ht : w.ty.kind ≠ .invalid) (hl : l < c.size)
    (hes : ∀ e ∈ w.incoming, 0 ≤ e.source ∧ e.source < c.size) :
    c.Opening l (ws ++ [w]) (c'.openPhi l w.value w.ty w.incoming) := by
  have hl' : l < c'.size := h.opens.size ▸ hl
  have hnil : c'.incoming w.value = [] := by
    by_contra hne
    obtain ⟨k, hk⟩ := h.consistent.joint w.value hne
    rw [hx] at hk
    cases hk
  have hnot : w.value ∉ ws.map Junction.value := fun hmem => (h.opens.fresh _ hmem).2 hx
  have hapart : ∀ w' ∈ ws, w'.value ≠ w.value := fun w' hw' he => hnot (he ▸ List.mem_map_of_mem hw')
  have hold : c.home w.value = none := by
    by_contra hne
    exact hne ((h.opens.home _ hne).1.symm.trans hx)
  have hne : ∀ {y}, c'.home y ≠ none → y ≠ w.value := fun hy he => hy (he ▸ hx)
  have hblock := fun k => phi_block c' w.value l k w.ty
  have hhome : ∀ y, y ≠ w.value → (c'.phi w.value l w.ty).home y = c'.home y := fun y hy =>
    Function.update_of_ne hy _ _
  have hty : ∀ y, y ≠ w.value → (c'.phi w.value l w.ty).ty y = c'.ty y := fun y hy =>
    Function.update_of_ne hy _ _
  have hself : (c'.phi w.value l w.ty).home w.value = some ⟨l, none⟩ := Function.update_self _ _ _
  rw [openPhi_eq]
  refine ⟨?_, ?_, ?_, ?_⟩
  · rw [List.map_append, List.map_singleton]
    exact {
      sig := h.opens.sig
      size := h.opens.size
      current := h.opens.current
      other := fun k hk => by
        show (c'.phi w.value l w.ty).block k = _
        rw [phi, edit_block, if_neg hk]
        exact h.opens.other k hk
      phis := by
        show ((c'.phi w.value l w.ty).block l).phis = _
        rw [(hblock l).1, if_pos rfl, h.opens.phis]
      code := (hblock l).2.1.trans h.opens.code
      exit := (hblock l).2.2.trans h.opens.exit
      home := fun y hy => by
        obtain ⟨hy', hty'⟩ := h.opens.home y hy
        have hyw : y ≠ w.value := hne (hy' ▸ hy)
        exact ⟨(hhome y hyw).trans hy', (hty y hyw).trans hty'⟩
      fresh := fun y hy => by
        rcases List.mem_append.1 hy with hy | hy
        · obtain ⟨hy1, hy2⟩ := h.opens.fresh y hy
          refine ⟨hy1, ?_⟩
          show (c'.phi w.value l w.ty).home y ≠ none
          rwa [hhome y (hne hy2)]
        · obtain rfl := List.mem_singleton.1 hy
          refine ⟨hold, ?_⟩
          show (c'.phi w.value l w.ty).home w.value ≠ none
          rw [hself]
          exact Option.some_ne_none _
      incoming := fun y hy => by
        have hyw : y ≠ w.value := fun he => hy (List.mem_append_right _ (List.mem_singleton.2 he))
        show Function.update c'.incoming w.value _ y = _
        rw [Function.update_of_ne hyw]
        exact h.opens.incoming y fun hmem => hy (List.mem_append_left _ hmem) }
  · have hphi := h.consistent.phi_call hx h0 hl' ht
    have := consistent_foldl_join w.incoming hphi hself fun e he => h.opens.size ▸ hes e he
    rwa [foldl_join] at this
  · intro w' hw'
    show Function.update c'.incoming w.value _ w'.value = _
    rcases List.mem_append.1 hw' with hw' | hw'
    · rw [Function.update_of_ne (hapart w' hw')]
      exact h.incoming w' hw'
    · obtain rfl := List.mem_singleton.1 hw'
      rw [Function.update_self, hnil, List.nil_append]
  · intro w' hw'
    show (c'.phi w.value l w.ty).ty w'.value = _
    rcases List.mem_append.1 hw' with hw' | hw'
    · rw [hty _ (hapart w' hw')]
      exact h.ty w' hw'
    · obtain rfl := List.mem_singleton.1 hw'
      exact Function.update_self _ _ _

end Chart

namespace Sheet

variable {A : Sheet} {l p : Label} {v : Nat} {x : Ref} {c : Chart} {ws : List Junction}

/-- On every edge to a block, a variable is kept in a value. -/
def Common (A : Sheet) (l : Label) (v : Nat) (x : Ref) : Prop :=
  A.chart.home x ≠ none ∧ ∀ p, ¬ A.dead p → A.Edge p l → A.Knows p (A.last p) v x

/-- A value joins one value from each edge to a block, in which the edge keeps the variable. -/
structure Joined (A : Sheet) (l : Label) (w : Junction) : Prop where
  one : ∀ p, ¬ A.dead p → A.Edge p l →
    w.incoming.countP (fun e => e.source == (p : Int)) = 1
  each : ∀ e ∈ w.incoming, ∃ p : Label, e.source = p ∧ A.Edge p l ∧ A.chart.ty e.ref = w.ty ∧
    A.chart.home e.ref ≠ none ∧ A.Knows p (A.last p) w.var e.ref

/-- What may be known where edges meet: variables are kept in values that join others, or in the value
that comes on all edges. -/
def Met (A : Sheet) (l : Label) (ws : List Junction) (v : Nat) (x : Ref) : Prop :=
  (∃ w ∈ ws, w.var = v ∧ w.value = x) ∨ A.Common l v x

/-- A block where edges meet is entered. -/
theorem Sound.meet (hA : A.Sound) (hcons : A.chart.Consistent) (hl : A.Pending l)
    (hc : A.chart.Opening l ws c) (hws : ∀ w ∈ ws, A.Joined l w) {K : Nat → Ref → Prop}
    (hK : ∀ v x, K v x → A.Met l ws v x) (hphi : ∀ w ∈ ws, K w.var w.value) :
    (A.enter l K c).Sound := by
  have hfresh : ∀ x, A.chart.home x ≠ none → x ∉ ws.map Junction.value := fun x hx hmem =>
    hx (hc.opens.fresh x hmem).1
  have hincoming : ∀ x ∈ ws.map Junction.value, ∃ w ∈ ws, w.value = x ∧ c.incoming x = w.incoming := by
    intro x hx
    obtain ⟨w, hw, rfl⟩ := List.mem_map.1 hx
    exact ⟨w, hw, rfl, hc.incoming w hw⟩
  refine hA.enter hcons hl hc.opens ?_ ?_ ?_ ?_ ?_
  · intro v x hx
    rcases hK v x hx with ⟨w, hw, rfl, rfl⟩ | ⟨hx, -⟩
    · exact (hc.opens.fresh _ (List.mem_map_of_mem hw)).2
    · rw [(hc.opens.home x hx).1]
      exact hx
  · intro p v x hp e hx
    rcases hK v x hx with ⟨w, hw, rfl, rfl⟩ | ⟨hx, hcommon⟩
    · obtain ⟨ev, hev, -, hfind⟩ := Chart.exists_of_countP_eq_one ((hws w hw).one p hp e)
      have hmem : w.value ∈ (c.block l).phis := by
        rw [hc.opens.phis]
        exact List.mem_map_of_mem hw
      have horigin : c.origin p l w.value = ev.ref := by
        simp only [Chart.origin, if_pos hmem, Chart.carried?, hc.incoming w hw, hfind]
        rfl
      obtain ⟨p', hsource, -, -, -, hk⟩ := (hws w hw).each ev hev
      have hp' : ev.source = (p : Int) := by simpa using List.find?_some hfind
      obtain rfl : p' = p := Int.ofNat_inj.1 (hsource.symm.trans hp')
      rwa [horigin]
    · rw [Chart.origin_of_notMem]
      · exact hcommon p hp e
      · rw [hc.opens.phis]
        exact hfresh x hx
  · intro x hx
    obtain ⟨w, hw, rfl⟩ := List.mem_map.1 hx
    exact ⟨w.var, hphi w hw⟩
  · intro p x hp e hx
    obtain ⟨w, hw, rfl, hin⟩ := hincoming x hx
    rw [hin]
    exact (hws w hw).one p hp e
  · intro x hx e he
    obtain ⟨w, hw, rfl, hin⟩ := hincoming x hx
    obtain ⟨p, hsource, hedge, hty, hhome, -⟩ := (hws w hw).each e (hin ▸ he)
    rw [hsource, Int.toNat_natCast, (hc.opens.home _ hhome).1, (hc.opens.home _ hhome).2, hty, hc.ty w hw]
    exact ⟨hedge, rfl, hhome⟩

/-! ## Edges back to the head of a loop -/

end Sheet

/-- The chart where values at the head of a loop join what comes on an edge back to it. -/
def Chart.joinPairs (c : Chart) (source : BlockId) (ps : List (Ref × Ref)) : Chart :=
  ps.foldl (fun c p => if p.1 = noRef then c else c.join p.1 source p.2) c

theorem Chart.joinPairs_eq (c : Chart) (source : BlockId) (ps : List (Ref × Ref)) :
    c.joinPairs source ps = { c with
      incoming := fun x => c.incoming x ++
        (ps.filter fun p => p.1 ≠ noRef ∧ p.1 = x).map fun p => ⟨source, p.2⟩ } := by
  induction ps generalizing c with
  | nil => simp [joinPairs]
  | cons p ps ih =>
    rw [joinPairs, List.foldl_cons, ← joinPairs, ih]
    by_cases hp : p.1 = noRef
    · simp [hp]
    simp only [hp, if_false, join, Chart.mk.injEq, true_and]
    funext x
    rw [Function.update_apply]
    by_cases hx : x = p.1
    · simp [hx, hp]
    · simp [hx, Ne.symm hx]

/-- A value at the head of a loop joins one of the values that come back. -/
theorem filter_zip_eq {phis rs : List Ref} {v : Nat} {x r : Ref} (hx : phis[v]? = some x)
    (hr : rs[v]? = some r) (hne : x ≠ noRef) (hnd : (phis.filter (· ≠ noRef)).Nodup) :
    (phis.zip rs).filter (fun p => p.1 ≠ noRef ∧ p.1 = x) = [(x, r)] := by
  induction phis generalizing rs v with
  | nil => cases hx
  | cons y phis ih =>
    cases rs with
    | nil => cases hr
    | cons s rs =>
      have hnd' : (phis.filter (· ≠ noRef)).Nodup := hnd.sublist ((List.sublist_cons_self y phis).filter _)
      have hmem : ∀ z ∈ phis, y ≠ noRef → z ≠ noRef → z ≠ y := by
        rintro z hz hy hz' rfl
        rw [List.filter_cons_of_pos (by simpa using hy)] at hnd
        exact (List.nodup_cons.1 hnd).1 (List.mem_filter.2 ⟨hz, by simpa using hy⟩)
      cases v with
      | zero =>
        obtain rfl := Option.some.inj hx
        obtain rfl := Option.some.inj hr
        have hrest : (phis.zip rs).filter (fun p => p.1 ≠ noRef ∧ p.1 = y) = [] := by
          refine List.filter_eq_nil_iff.2 fun p hp => ?_
          have := hmem p.1 (List.of_mem_zip hp).1 hne
          simpa using this
        rw [List.zip_cons_cons, List.filter_cons_of_pos (by simpa using hne), hrest]
      | succ v =>
        have hyx : ¬ (y ≠ noRef ∧ y = x) := by
          rintro ⟨hy, rfl⟩
          exact hmem y (List.mem_of_getElem? hx) hy hy rfl
        rw [List.zip_cons_cons, List.filter_cons_of_neg (by simpa using hyx)]
        exact ih hx hr hnd'

namespace Sheet

variable {A : Sheet} {l p h : Label} {v : Nat} {x : Ref} {c : Chart} {phis rs : List Ref} {e : Exit}

/-- The head of a loop keeps each variable in a value of its own; variables that it does not keep have no
value. -/
structure Heads (A : Sheet) (h : Label) (phis : List Ref) : Prop where
  known : ∀ v x, A.known h 0 v x ↔ phis[v]? = some x ∧ x ≠ noRef
  values : (A.chart.block h).phis = phis.filter (· ≠ noRef)

theorem Heads.mem_iff (hh : A.Heads h phis) :
    x ∈ (A.chart.block h).phis ↔ ∃ v : Nat, phis[v]? = some x ∧ x ≠ noRef := by
  rw [hh.values, List.mem_filter]
  constructor
  · rintro ⟨hx, hne⟩
    obtain ⟨v, hv⟩ := List.mem_iff_getElem?.1 hx
    exact ⟨v, hv, by simpa using hne⟩
  · rintro ⟨v, hv, hne⟩
    exact ⟨List.mem_of_getElem? hv, by simpa using hne⟩

theorem exits_joinPairs (c : Chart) (e : Exit) (ps : List (Ref × Ref)) :
    c.Exits e ((c.terminate e).joinPairs c.current ps) := by
  rw [Chart.joinPairs_eq]
  refine ⟨rfl, rfl, rfl, fun _ => rfl, rfl, rfl, fun x => ⟨_, rfl, fun e he => ?_⟩⟩
  obtain ⟨p, -, rfl⟩ := List.mem_map.1 he
  rfl

/-- Every variable that the head of a loop keeps comes back in a value. -/
def Returns (A : Sheet) (phis rs : List Ref) : Prop :=
  ∀ v x, phis[v]? = some x → x ≠ noRef → ∃ r, rs[v]? = some r ∧ A.Knows A.chart.current A.top v r ∧
    A.chart.ty r = A.chart.ty x ∧ A.chart.home r ≠ none

/-- The current block is left for the head of a loop, or for blocks that nothing is known of. -/
theorem Sound.back (hA : A.Sound) (hcons : A.chart.Consistent)
    (hexit : A.chart.Unended) (hh : A.Heads h phis) (hdead : ¬ A.dead h)
    (hreads : ∀ x ∈ e.reads, A.Held A.chart.current A.top x)
    (hhead : (h : Int) ∈ e.targets)
    (hother : ∀ t : Label, (t : Int) ∈ e.targets → t ≠ h → A.Pending t)
    (hrs : A.Returns phis rs) :
    (A.leave ((A.chart.terminate e).joinPairs A.chart.current (phis.zip rs))).Sound := by
  set c := (A.chart.terminate e).joinPairs A.chart.current (phis.zip rs) with hcdef
  have hc : A.chart.Exits e c := exits_joinPairs A.chart e _
  have hnd : (phis.filter (· ≠ noRef)).Nodup := hh.values ▸ hcons.nodup h
  have hincoming : ∀ x, c.incoming x = A.chart.incoming x ++
      ((phis.zip rs).filter fun p => p.1 ≠ noRef ∧ p.1 = x).map
        fun p => ⟨(A.chart.current : Int), p.2⟩ := by
    intro x
    rw [hcdef, Chart.joinPairs_eq]
    rfl
  have hback : ∀ v x, phis[v]? = some x → x ≠ noRef → ∃ r, c.incoming x = A.chart.incoming x ++
      [⟨(A.chart.current : Int), r⟩] ∧ A.Knows A.chart.current A.top v r := by
    intro v x hx hne
    obtain ⟨r, hr, hk, -⟩ := hrs v x hx hne
    refine ⟨r, ?_, hk⟩
    rw [hincoming, filter_zip_eq hx hr hne hnd, List.map_singleton]
  -- The block had no exit, so nothing came from it before.
  have hnone : ∀ x ∈ (A.chart.block h).phis, ∀ e ∈ A.chart.incoming x,
      e.source ≠ (A.chart.current : Int) := by
    intro x hx e he hs
    have := (hA.each h x e hx he).1
    rw [hs, Int.toNat_natCast] at this
    exact edge_of_exit_eq_none hexit h this
  refine hA.leave hc hexit (fun _ => hreads) (fun _ t ht => ?_) (fun _ t ht v x hk => ?_)
    (fun _ t ht x hx => ?_) (fun l x hx e' he' hnew => ?_)
  · by_cases hne : t = h
    · exact hne ▸ hdead
    · exact (hother t ht hne).alive
  · by_cases hne : t = h
    · subst hne
      obtain ⟨hx, hxne⟩ := (hh.known v x).1 hk
      have hmem := hh.mem_iff.2 ⟨v, hx, hxne⟩
      obtain ⟨r, hin, hkr⟩ := hback v x hx hxne
      have hfind : (A.chart.incoming x).find? (fun e => e.source == (A.chart.current : Int)) = none :=
        List.find?_eq_none.2 fun e he => by simpa using hnone x hmem e he
      have horigin : c.origin A.chart.current t x = r := by
        rw [Chart.origin, hc.phis, if_pos hmem, Chart.carried?, hin, List.find?_append, hfind]
        simp
      rwa [horigin]
    · exact absurd hk ((hother t ht hne).unknown 0 v x)
  · by_cases hne : t = h
    · subst hne
      obtain ⟨v, hx', hxne⟩ := hh.mem_iff.1 hx
      obtain ⟨r, hin, -⟩ := hback v x hx' hxne
      have hzero : (A.chart.incoming x).countP (fun e => e.source == (A.chart.current : Int)) = 0 :=
        List.countP_eq_zero.2 fun e he => by simpa using hnone x hx e he
      rw [hin, List.countP_append, hzero]
      simp
    · rw [(hother t ht hne).phis] at hx
      cases hx
  · -- A value that got something new stands at the head of the loop.
    rw [hincoming] at he'
    obtain ⟨p, hp, rfl⟩ := List.mem_map.1 ((List.mem_append.1 he').resolve_left hnew)
    obtain ⟨hzip, hpx⟩ := List.mem_filter.1 hp
    obtain ⟨hpne, rfl⟩ : p.1 ≠ noRef ∧ p.1 = x := by simpa using hpx
    obtain ⟨v, hv⟩ := List.mem_iff_getElem?.1 hzip
    obtain ⟨hv1, hv2⟩ := List.getElem?_zip_eq_some.1 hv
    obtain ⟨r, hr, -, hrest⟩ := hrs v p.1 hv1 hpne
    cases hv2.symm.trans hr
    have hlh : l = h := by
      have := ((hcons.phi l p.1).1 hx).symm.trans ((hcons.phi h p.1).1 (hh.mem_iff.2 ⟨v, hv1, hpne⟩))
      simpa using this
    exact ⟨hlh ▸ hhead, hrest⟩

end Sheet

end Codesmith.Gen
