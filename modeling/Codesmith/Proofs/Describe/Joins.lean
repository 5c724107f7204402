import Codesmith.Proofs.Describe.Within

/-!
# Where parts of a construct join

At a join the variables get values that join those of all edges, where these differ. At the head of a loop
every variable in scope gets a value of its own.
-/

namespace Codesmith

namespace MergeSet

variable {flows : List EdgeFlow} {i : Int} {is : List Int} {ms : List MergedVar} {es : List EdgeValue}
variable {b : Bool}

/-- A variable has one value for each edge. -/
theorem incoming_ok (h : incoming flows i = .ok es) : es.map EdgeValue.source = flows.map EdgeFlow.source ∧
      (∀ e ∈ es, ∃ f ∈ flows, e.source = f.source ∧ fetch f.refs i = .ok e.ref) ∧
        ∀ f ∈ flows, ∃ e ∈ es, e.source = f.source ∧ fetch f.refs i = .ok e.ref := by
  induction flows generalizing es with
  | nil =>
    cases h
    exact ⟨rfl, nofun, nofun⟩
  | cons f flows ih =>
    rw [incoming, List.mapM_cons, ← incoming] at h
    obtain ⟨e1, hone, h⟩ := bind_eq_ok.1 h
    obtain ⟨r, hf, hone⟩ := bind_eq_ok.1 hone
    obtain ⟨es', hrest, h⟩ := bind_eq_ok.1 h
    cases hone
    cases h
    obtain ⟨hsources, hes, hflows⟩ := ih hrest
    refine ⟨congrArg (f.source :: ·) hsources, fun e he => ?_, fun f' hf' => ?_⟩
    · rcases List.mem_cons.1 he with rfl | he
      · exact ⟨f, List.mem_cons_self, rfl, hf⟩
      · obtain ⟨f', hf', hfe⟩ := hes e he
        exact ⟨f', List.mem_cons_of_mem _ hf', hfe⟩
    · rcases List.mem_cons.1 hf' with rfl | hf'
      · exact ⟨_, List.mem_cons_self, rfl, hf⟩
      · obtain ⟨e, he, hfe⟩ := hflows f' hf'
        exact ⟨e, List.mem_cons_of_mem _ he, hfe⟩

theorem same_ok {m : MergedVar} (h : m.same = .ok b) : b = true ↔ ∃ r, ∀ e ∈ m.incoming, e.ref = r := by
  rw [MergedVar.same] at h
  split at h
  · cases h
  rename_i e es heq
  cases h
  rw [heq, List.all_eq_true]
  constructor
  · refine fun hall => ⟨e.ref, fun e' he' => ?_⟩
    rcases List.mem_cons.1 he' with rfl | he'
    · rfl
    · exact beq_iff_eq.1 (hall e' he')
  · rintro ⟨r, hr⟩ e' he'
    exact beq_iff_eq.2 ((hr e' (List.mem_cons_of_mem e he')).trans (hr e List.mem_cons_self).symm)

theorem same_iff (hes : incoming flows i = .ok es) (h : MergedVar.same ⟨i, es, noRef⟩ = .ok b) :
    b = true ↔ ∃ r, ∀ f ∈ flows, fetch f.refs i = .ok r := by
  obtain ⟨-, hin, hall⟩ := incoming_ok hes
  rw [same_ok h]
  refine exists_congr fun r => ⟨fun hr f hf => ?_, fun hr e he => ?_⟩
  · obtain ⟨e, he, -, hfetch⟩ := hall f hf
    rw [hfetch, hr e he]
  · obtain ⟨f, hf, -, hfetch⟩ := hin e he
    exact Except.ok.inj (hfetch.symm.trans (hr f hf))

/-- A variable is merged unless all edges bring the same value. -/
theorem differing_ok (h : differing flows is = .ok ms) :
    (∀ m ∈ ms, m.var ∈ is ∧ incoming flows m.var = .ok m.incoming ∧
      ¬ ∃ r, ∀ f ∈ flows, fetch f.refs m.var = .ok r) ∧
        ∀ i ∈ is, (∃ m ∈ ms, m.var = i) ∨ ∃ r, ∀ f ∈ flows, fetch f.refs i = .ok r := by
  induction is generalizing ms with
  | nil =>
    cases h
    exact ⟨nofun, nofun⟩
  | cons i is ih =>
    rw [differing] at h
    obtain ⟨es, hes, h⟩ := bind_eq_ok.1 h
    obtain ⟨b, hsame, h⟩ := bind_eq_ok.1 h
    have hiff := same_iff hes hsame
    cases b with
    | true =>
      obtain ⟨hms, his⟩ := ih h
      refine ⟨fun m hm => ⟨List.mem_cons_of_mem _ (hms m hm).1, (hms m hm).2⟩, fun k hk => ?_⟩
      rcases List.mem_cons.1 hk with rfl | hk
      · exact .inr (hiff.1 rfl)
      · exact his k hk
    | false =>
      obtain ⟨ms', hrest, h⟩ := bind_eq_ok.1 h
      cases h
      obtain ⟨hms, his⟩ := ih hrest
      refine ⟨fun m hm => ?_, fun k hk => ?_⟩
      · rcases List.mem_cons.1 hm with rfl | hm
        · exact ⟨List.mem_cons_self, hes, fun hr => nomatch hiff.2 hr⟩
        · exact ⟨List.mem_cons_of_mem _ (hms m hm).1, (hms m hm).2⟩
      · rcases List.mem_cons.1 hk with rfl | hk
        · exact .inl ⟨_, List.mem_cons_self, rfl⟩
        · exact (his k hk).imp_left fun ⟨m, hm, hmk⟩ => ⟨m, List.mem_cons_of_mem _ hm, hmk⟩

theorem build_ok {join : BlockId} {m : MergeSet} (h : build join flows is = .ok m) :
    ∃ ms, differing flows is = .ok ms ∧ m = ⟨join, ms⟩ := by
  obtain ⟨ms, hms, h⟩ := bind_eq_ok.1 h
  exact ⟨ms, hms, (Except.ok.inj h).symm⟩

end MergeSet

namespace Describe

open Gen
open Direct (EndsAt)

variable {s0 s s' t t' : Sketch} {A0 A A' : Sheet} {c c' : Chart} {l b x : Label} {n v : Nat}
  {flows : List EdgeFlow} {V W : Nat → Prop} {L L' : List Label} {ws : List Junction} {y : Var}
  {es : List EdgeValue}
variable {p : Var × Nat} {r : Ref} {g : Generator} {u : Unit} {f : EdgeFlow}
  {assigned : Option BitSet.Plain}

/-- The first variables of a sketch with their numbers. -/
def Sketch.first (s : Sketch) (n : Nat) : List (Var × Nat) :=
  (s.vars.extract 0 n).toList.zipIdx

theorem first_getElem? {i : Nat} : (s.first n)[i]? = some p ↔ i < n ∧ s.vars[i]? = some p.1 ∧ p.2 = i := by
  rw [Sketch.first, List.getElem?_zipIdx, Array.getElem?_toList, Array.getElem?_extract]
  simp only [Nat.zero_add, Nat.sub_zero, Option.map_eq_some_iff]
  constructor
  · rintro ⟨y, hy, rfl⟩
    split at hy
    · exact ⟨by omega, hy, rfl⟩
    · cases hy
  · rintro ⟨hi, hy, rfl⟩
    have := (Array.getElem?_eq_some_iff.1 hy).1
    exact ⟨p.1, by rwa [if_pos (by omega)], rfl⟩

theorem mem_first : p ∈ s.first n ↔ p.2 < n ∧ s.vars[p.2]? = some p.1 := by
  rw [List.mem_iff_getElem?]
  simp only [first_getElem?]
  exact ⟨fun ⟨_, hi, hy, he⟩ => he ▸ ⟨hi, hy⟩, fun ⟨hi, hy⟩ => ⟨_, hi, hy, rfl⟩⟩

theorem mem_joined {a : Option BitSet.Plain} {i : Int} : i ∈ s.joined n a ↔
    ∃ (v : Nat) (y : Var), i = v ∧ v < n ∧ s.vars[v]? = some y ∧ s.isClosed y = false ∧
      ∀ f, a = some f → f.contains v = true := by
  rw [Sketch.joined, ← Sketch.first]
  simp only [List.mem_map, List.mem_filter, Prod.exists, mem_first, Bool.and_eq_true, Bool.not_eq_true']
  constructor
  · rintro ⟨y, v, ⟨⟨hv, hy⟩, hopen, ha⟩, rfl⟩
    refine ⟨v, y, rfl, hv, hy, hopen, ?_⟩
    rintro f rfl
    exact ha
  · rintro ⟨v, y, rfl, hv, hy, hopen, ha⟩
    refine ⟨y, v, ⟨⟨hv, hy⟩, hopen, ?_⟩, rfl⟩
    cases a with
    | none => rfl
    | some f => exact ha f rfl

/-! ## Values at the head of a block -/

/-- Values were made at the head of a block, and variables are kept in them. -/
structure Opened (l : Label) (c : Gen.Chart) (t : Sketch) (ws : List Junction) (t' : Sketch)
    (c' : Gen.Chart) : Prop where
  rest : t' = { t with gen := t'.gen, vars := t'.vars }
  size : t'.vars.size = t.vars.size
  models : t'.gen.Models c'
  opening : c.Opening l ws c'
  vars : ∀ (v : Nat) y, t.vars[v]? = some y → ∃ r, t'.vars[v]? = some { y with ref := r } ∧
    (r = y.ref ∧ (∀ w ∈ ws, w.var ≠ v) ∨ ∃ w ∈ ws, w.var = v ∧ w.value = r)
  ty : ∀ w ∈ ws, ∃ y, t.vars[w.var]? = some y ∧ w.ty = y.ty

theorem opened_nil (hm : t.gen.Models (c.setBlock l)) (hc : c.Consistent) (hl : l < c.size)
    (hphis : (c.block l).phis = []) : Opened l c t [] t (c.setBlock l) where
  rest := rfl
  size := rfl
  models := hm
  opening := Chart.opening_setBlock hc hl hphis
  vars _ y hy := ⟨y.ref, hy, .inl ⟨rfl, nofun⟩⟩
  ty _ hw := absurd hw List.not_mem_nil

/-- One more value is made. -/
theorem Opened.snoc (h : Opened l c t ws t' c') (es : List EdgeValue) (hl : l < c.size) (hy : t.vars[v]? = some y)
    (hkind : y.ty.kind ≠ .invalid) (hes : ∀ e ∈ es, 0 ≤ e.source ∧ e.source < c.size) :
    ∃ r g, t'.gen.phi l y.ty = (r, g) ∧ 0 ≤ r ∧
      Opened l c t (ws ++ [⟨v, r, y.ty, es⟩]) ({ t' with gen := g.addAll r es }.setRef v r)
        (c'.openPhi l r y.ty es) := by
  have hsize := h.opening.opens.size
  obtain ⟨r, g, hphi, hnone, h0, hm⟩ := h.models.openPhi h.opening.consistent (hsize ▸ hl) hkind
    fun e he => hsize.symm ▸ hes e he
  refine ⟨r, g, hphi, h0, ?_, ?_, hm, h.opening.snoc hnone h0 hkind hl hes, fun k z hz => ?_, fun w hw => ?_⟩
  · rw [h.rest]
    rfl
  · rw [Sketch.setRef, Array.size_modify]
    exact h.size
  · obtain ⟨q, hq, hcases⟩ := h.vars k z hz
    rw [Sketch.setRef_vars, hq]
    by_cases hk : v = k
    · exact ⟨r, by rw [Option.map_some, if_pos hk], .inr ⟨⟨v, r, y.ty, es⟩, by simp, hk, rfl⟩⟩
    refine ⟨q, by rw [Option.map_some, if_neg hk], ?_⟩
    rcases hcases with ⟨hq, hnot⟩ | ⟨w, hw, hwk⟩
    · refine .inl ⟨hq, fun w hw => ?_⟩
      rcases List.mem_append.1 hw with hw | hw
      · exact hnot w hw
      · rw [List.mem_singleton.1 hw]
        exact hk
    · exact .inr ⟨w, List.mem_append_left _ hw, hwk⟩
  · rcases List.mem_append.1 hw with hw | hw
    · exact h.ty w hw
    · rw [List.mem_singleton.1 hw]
      exact ⟨y, hy, rfl⟩

theorem addAll_run (r : Ref) (es : List EdgeValue) (s : Sketch) :
    (es.forM fun e => instruct (Generator.addIncoming r e.source e.ref)) s =
      .ok ((), { s with gen := s.gen.addAll r es }) := by
  induction es generalizing s with
  | nil => rfl
  | cons e es ih =>
    rw [List.forM, Generator.addAll, List.foldl_cons, ← Generator.addAll]
    exact ih { s with gen := s.gen.addIncoming r e.source e.ref }

theorem phi_run {join : BlockId} {ty : Ty} (h : s.gen.phi join ty = (r, g)) :
    generate (Generator.phi join ty) s = .ok (r, { s with gen := g }) := by
  show Except.ok ((s.gen.phi join ty).1, { s with gen := (s.gen.phi join ty).2 }) = _
  rw [h]

theorem joinVar_run {m : MergedVar} {join : BlockId}
    (h : s.gen.phi join (((fetch? s.vars m.var).map Var.ty).getD .void) = (r, g)) :
    joinVar join m s = .ok ((), { s with gen := g.addAll r m.incoming }.setRef m.var.toNat r) := by
  have hbind : joinVar join m s = (generate (Generator.phi join _) >>= fun r => do
      m.incoming.forM fun e => instruct (Generator.addIncoming r e.source e.ref)
      modify fun s => s.setRef m.var.toNat r) s := rfl
  rw [hbind]
  simp only [bind, StateT.bind, Except.bind, phi_run h, addAll_run]
  rfl

theorem joinVars_ok {ms : List MergedVar} (h : Opened l c t ws t' c') (hl : l < c.size)
    (hms : ∀ m ∈ ms, ∃ (v : Nat) (y : Var), m.var = v ∧ t.vars[v]? = some y ∧ y.ty.kind ≠ .invalid)
    (hes : ∀ m ∈ ms, ∀ e ∈ m.incoming, 0 ≤ e.source ∧ e.source < c.size)
    (hrun : ms.forM (joinVar l) t' = .ok (u, s')) :
    ∃ ws' c'', Opened l c t (ws ++ ws') s' c'' ∧ (∀ m ∈ ms, ∃ w ∈ ws', m.var = w.var) ∧
      ∀ w ∈ ws', ∃ m ∈ ms, m.var = w.var ∧ w.incoming = m.incoming := by
  induction ms generalizing ws t' c' with
  | nil =>
    cases hrun
    exact ⟨[], c', by rwa [List.append_nil], nofun, nofun⟩
  | cons m ms ih =>
    obtain ⟨v, y, hv, hy, hkind⟩ := hms m List.mem_cons_self
    obtain ⟨r, g, hphi, -, hsnoc⟩ := h.snoc m.incoming hl hy hkind (hes m List.mem_cons_self)
    have hjoin : joinVar l m t' =
        .ok ((), { t' with gen := g.addAll r m.incoming }.setRef v r) := by
      obtain ⟨q, hq, -⟩ := h.vars v y hy
      have hty : ((fetch? t'.vars m.var).map Var.ty).getD .void = y.ty := by
        rw [hv, fetch?_natCast, hq]
        rfl
      have hrun := joinVar_run (m := m) (hty.symm ▸ hphi)
      rwa [hv, Int.toNat_natCast] at hrun
    rw [List.forM] at hrun
    obtain ⟨_, t'', hone, hrest⟩ := bind_ok hrun
    cases hone.symm.trans hjoin
    obtain ⟨ws', c'', hopened, hall, hfrom⟩ := ih hsnoc
      (fun m' hm' => hms m' (List.mem_cons_of_mem m hm'))
      (fun m' hm' => hes m' (List.mem_cons_of_mem m hm')) hrest
    refine ⟨_ :: ws', c'', by simpa using hopened, fun m' hm' => ?_, fun w hw => ?_⟩
    · rcases List.mem_cons.1 hm' with rfl | hm'
      · exact ⟨_, List.mem_cons_self, hv⟩
      · obtain ⟨w, hw, hmw⟩ := hall m' hm'
        exact ⟨w, List.mem_cons_of_mem _ hw, hmw⟩
    · rcases List.mem_cons.1 hw with rfl | hw
      · exact ⟨m, List.mem_cons_self, hv, rfl⟩
      · obtain ⟨m', hm', hmw⟩ := hfrom w hw
        exact ⟨m', List.mem_cons_of_mem _ hm', hmw⟩

/-- The values at the head of a loop, which join what comes on the first edge to it. -/
def opened (source : BlockId) (ps : List (Var × Nat)) (phis : List Ref) : List Junction :=
  (ps.zip phis).filterMap fun q =>
    if q.2 = noRef then none else some ⟨q.1.2, q.2, q.1.1.ty, [⟨source, q.1.1.ref⟩]⟩

section Opening

variable {source : BlockId} {ps : List (Var × Nat)} {phis : List Ref}

theorem mem_opened {w : Junction} : w ∈ opened source ps phis ↔
    ∃ q ∈ ps.zip phis, q.2 ≠ noRef ∧ w = ⟨q.1.2, q.2, q.1.1.ty, [⟨source, q.1.1.ref⟩]⟩ := by
  rw [opened, List.mem_filterMap]
  refine exists_congr fun q => and_congr_right fun _ => ?_
  split
  · simp [*]
  · rename_i hne
    rw [Option.some.injEq, eq_comm, and_iff_right hne]

theorem map_value_opened (h : phis.length = ps.length) :
    (opened source ps phis).map Junction.value = phis.filter (· ≠ noRef) := by
  induction ps generalizing phis with
  | nil =>
    rw [List.length_eq_zero_iff.1 h]
    rfl
  | cons p ps ih =>
    cases phis with
    | nil => cases h
    | cons r phis =>
      have hrest := ih (Nat.succ.inj h)
      rw [opened] at hrest ⊢
      by_cases hr : r = noRef
      · simpa [hr] using hrest
      · simpa [hr] using hrest

theorem openVar_run {join : BlockId} {r : Ref} {g : Generator} (hopen : s.isClosed y = false)
    (h : s.gen.phi join y.ty = (r, g)) : openVar join source v y s =
      .ok (r, { s with gen := g.addAll r [⟨source, y.ref⟩] }.setRef v r) := by
  have hbind : openVar join source v y s = (do
      if s.isClosed y then return noRef
      let r ← generate (Generator.phi join y.ty)
      instruct (Generator.addIncoming r source y.ref)
      modify fun s => s.setRef v r
      return r : Edit Ref) s := rfl
  rw [hbind, hopen]
  simp only [Bool.false_eq_true, if_false, bind, StateT.bind, Except.bind, phi_run h]
  rfl

theorem openVars_ok (h : Opened l c t ws t' c') (hl : l < c.size)
    (hps : ∀ p ∈ ps, t.vars[p.2]? = some p.1 ∧ p.1.ty.kind ≠ .invalid)
    (hsource : 0 ≤ source ∧ source < c.size)
    (hrun : (ps.mapM fun p => openVar l source p.2 p.1) t' = .ok (phis, s')) :
    ∃ c'', Opened l c t (ws ++ opened source ps phis) s' c'' ∧ phis.length = ps.length ∧
      ∀ q ∈ ps.zip phis, q.2 = noRef ↔ t.isClosed q.1.1 = true := by
  induction ps generalizing ws t' c' phis with
  | nil =>
    cases hrun
    exact ⟨c', by rwa [opened, List.zip_nil_left, List.filterMap_nil, List.append_nil], rfl, nofun⟩
  | cons p ps ih =>
    rw [List.mapM_cons] at hrun
    obtain ⟨r, t1, hone, hrun⟩ := bind_ok hrun
    obtain ⟨rs, t2, hrest, hrun⟩ := bind_ok hrun
    cases hrun
    have hps' := fun q hq => hps q (List.mem_cons_of_mem p hq)
    obtain ⟨hy, hkind⟩ := hps p List.mem_cons_self
    have hclosed : t'.isClosed p.1 = t.isClosed p.1 := by
      rw [h.rest]
      rfl
    cases hc : t.isClosed p.1 with
    | true =>
      have hskip : openVar l source p.2 p.1 t' = .ok (noRef, t') := by
        show (if t'.isClosed p.1 then pure noRef else _ : Edit Ref) t' = _
        rw [hclosed, hc]
        rfl
      cases hone.symm.trans hskip
      obtain ⟨c'', hopened, hlen, hiff⟩ := ih h hps' hrest
      refine ⟨c'', by simpa [opened] using hopened, congrArg Nat.succ hlen, fun q hq => ?_⟩
      rcases List.mem_cons.1 hq with rfl | hq
      · exact iff_of_true rfl hc
      · exact hiff q hq
    | false =>
      obtain ⟨r', g, hphi, h0, hsnoc⟩ := h.snoc [⟨source, p.1.ref⟩] hl hy hkind
        fun e he => List.mem_singleton.1 he ▸ hsource
      cases hone.symm.trans (openVar_run (hclosed.trans hc) hphi)
      have hne : r ≠ noRef := by
        rintro rfl
        exact absurd h0 (by decide)
      obtain ⟨c'', hopened, hlen, hiff⟩ := ih hsnoc hps' hrest
      refine ⟨c'', by simpa [opened, hne] using hopened, congrArg Nat.succ hlen, fun q hq => ?_⟩
      rcases List.mem_cons.1 hq with rfl | hq
      · exact iff_of_false hne (by simp [hc])
      · exact hiff q hq

end Opening

/-! ## Joins -/

/-- What all edges bring is the same. -/
theorem Awaits.common (h : Awaits s A b n flows) (hne : flows ≠ []) (hy : s.vars[v]? = some y)
    (hopen : s.isClosed y = false) (hr : ∀ f ∈ flows, f.refs[v]? = some r) : A.Common b v r := by
  constructor
  · obtain ⟨f, hf⟩ := List.exists_mem_of_ne_nil flows hne
    exact ((h.each f hf).ty v y r hy (hr f hf)).1
  · intro p hp hedge
    obtain ⟨f, hf, hfp⟩ := List.mem_map.1 (h.all p hp hedge)
    obtain ⟨q, hq, -, -, hknown⟩ := (h.each f hf).source
    obtain rfl := Int.ofNat_inj.1 (hq.symm.trans hfp)
    exact hknown v y r hy hopen (hr f hf)

/-- A value joins those of all edges. -/
theorem Awaits.joined {w : Junction} (h : Awaits s A b n flows) (hy : s.vars[w.var]? = some y)
    (hopen : s.isClosed y = false) (hty : w.ty = y.ty)
    (hin : MergeSet.incoming flows w.var = .ok w.incoming) : A.Joined b w := by
  obtain ⟨hsources, heach, -⟩ := MergeSet.incoming_ok hin
  constructor
  · intro p hp hedge
    have hcount : w.incoming.countP (fun e => e.source == (p : Int)) =
        (w.incoming.map EdgeValue.source).count (p : Int) := by
      rw [List.count, List.countP_map]
      rfl
    rw [hcount, hsources]
    exact List.count_eq_one_of_mem h.nodup (h.all p hp hedge)
  · intro e he
    obtain ⟨f, hf, hsource, hfetch⟩ := heach e he
    have href : f.refs[w.var]? = some e.ref := fetch_eq_ok_iff.1 hfetch
    obtain ⟨p, hp, -, hedge, hknown⟩ := (h.each f hf).source
    obtain ⟨hhome, hty'⟩ := (h.each f hf).ty _ y _ hy href
    exact ⟨p, hsource.trans hp, hedge, hty'.trans hty.symm, hhome, hknown _ y _ hy hopen href⟩

/-- The sketch goes on where edges meet. -/
structure Merged (b : Label) (n : Nat) (flows : List EdgeFlow) (s : Sketch) (A : Sheet) (s' : Sketch)
    (A' : Sheet) : Prop where
  alike : s.Alike s'
  size : s'.vars.size = s.vars.size
  frames : s'.frames = s.frames
  error : s'.error = s.error
  grows : A.Grows 0 (fun _ => False) (fun _ => False) (· = b) (fun _ => False) A'
  dead : s'.dead = true ↔ flows = []
  known : flows ≠ [] → ∀ (v : Nat) x, v < n → s'.vars[v]? = some x → s'.isClosed x = false →
    A'.Knows b 0 v x.ref
  common : flows ≠ [] → ∀ v r, A.Common b v r → A'.Knows b 0 v r
  same : ∀ (v : Nat) x x', s.vars[v]? = some x → s'.vars[v]? = some x' →
    (∀ f ∈ flows, v < n → f.refs[v]? = some x.ref) → x'.ref = x.ref

theorem restored_vars (refs : Array Ref) (hy : s.vars[v]? = some y) :
    (s.restoreFrom 0 refs.toList).vars[v]? = some { y with ref := refs[v]?.getD y.ref } := by
  rw [Sketch.restoreFrom_vars, hy, Option.map_some, if_pos (Nat.zero_le v), Nat.sub_zero,
    Array.getElem?_toList]

theorem restored_size (s : Sketch) (i : Nat) (rs : List Ref) :
    (s.restoreFrom i rs).vars.size = s.vars.size := by
  induction rs generalizing s i with
  | nil => rfl
  | cons r rs ih => rw [Sketch.restoreFrom, ih, Sketch.setRef, Array.size_modify]

section

variable (h : Within W V L s0 A0 s A) (hleft : A.Left) (hw : Awaits s A b n flows) (hb : b ∈ L)
include h hleft hw hb

/-- A block is entered to which control gets. The variables have the values of one of the edges, except
for those that are kept in values made here. -/
theorem Within.meet (hlive : s0.dead = false) (hf : f ∈ flows)
    (ho : Opened b A.chart ({ s with gen := g, dead := false }.restoreFrom 0 f.refs.toList) ws s' c')
    (hws : ∀ w ∈ ws, A.Joined b w ∧ w.var < n ∧ ¬ ∃ r, ∀ f ∈ flows, f.refs[w.var]? = some r)
    (hall : ∀ (v : Nat) y, v < n → s.vars[v]? = some y → s.isClosed y = false →
      (∃ w ∈ ws, w.var = v) ∨ ∃ r, ∀ f ∈ flows, f.refs[v]? = some r) (hL : Remain b L L') :
    ∃ A', Within W V L' s0 A0 s' A' ∧ Entered b s' A' ∧ Merged b n flows s A s' A' := by
  have hne : flows ≠ [] := List.ne_nil_of_mem hf
  have hrest : s' = { s with gen := s'.gen, dead := false, vars := s'.vars } := by
    have := ho.rest
    rw [Sketch.restoreFrom_eq] at this
    exact this
  have hsize : s'.vars.size = s.vars.size := ho.size.trans (restored_size _ _ _)
  have hvar : ∀ (v : Nat) y, s.vars[v]? = some y → ∃ r, s'.vars[v]? = some { y with ref := r } ∧
      (r = f.refs[v]?.getD y.ref ∧ (∀ w ∈ ws, w.var ≠ v) ∨ ∃ w ∈ ws, w.var = v ∧ w.value = r) :=
    fun v y hy => ho.vars v _ (restored_vars (s := { s with gen := g, dead := false }) f.refs hy)
  have halike : s.Alike s' := by
    rw [hrest]
    refine ⟨rfl, rfl, rfl, rfl, rfl, rfl, rfl, rfl, fun v y hy => ?_⟩
    obtain ⟨r, hr, -⟩ := hvar v y hy
    exact ⟨_, hr, rfl, rfl⟩
  have hdead : s'.dead = false := congrArg Sketch.dead hrest
  have hgrows : A.Grows 0 (fun _ => False) (fun _ => False) (· = b) (fun _ => False)
      (A.enter b (A.Met b ws) c') := Sheet.grows_enter ho.opening.opens
  -- The values of one edge have the types of the variables, and so have the values that join.
  have hvars : ∀ (v : Nat) y', s'.vars[v]? = some y' →
      (A.enter b (A.Met b ws) c').HasTy y'.ref y'.ty := by
    intro v y' hy'
    obtain ⟨y, hy, -⟩ := halike.back hsize hy'
    obtain ⟨r, hr, hcases⟩ := hvar v y hy
    cases hy'.symm.trans hr
    rcases hcases with ⟨rfl, -⟩ | ⟨w, hmem, rfl, rfl⟩
    · refine hgrows.hasTy ?_
      show A.HasTy (f.refs[v]?.getD y.ref) y.ty
      cases href : f.refs[v]? with
      | none => exact (h.drawn.ty v y hy).1
      | some r => exact (hw.each f hf).ty v y r hy href
    · obtain ⟨z, hz, hty⟩ := ho.ty w hmem
      obtain rfl := Option.some.inj
        (hz.symm.trans (restored_vars (s := { s with gen := g, dead := false }) f.refs hy))
      exact ⟨(ho.opening.opens.fresh _ (List.mem_map_of_mem hmem)).2, (ho.opening.ty w hmem).trans hty⟩
  obtain ⟨hwithin, hentered, -⟩ := h.enter _ (K := A.Met b ws) hleft hw.toWaiting hb hlive
    (hw.exists_edge hne) ho.models ho.opening (fun w hmem => (hws w hmem).1) (fun _ _ hm => hm)
    (fun w hmem => .inl ⟨w, hmem, rfl, rfl⟩) halike hsize hdead hvars hL
  refine ⟨_, hwithin, hentered, halike, hsize, by rw [hrest], by rw [hrest], hgrows,
    by simp [hdead, hne], fun _ v y' hv hy' hopen _ => ?_, fun _ v r hr _ => .inr ⟨rfl, rfl, .inr hr⟩,
    fun v y y' hy hy' hr => ?_⟩
  · obtain ⟨y, hy, -⟩ := halike.back hsize hy'
    obtain ⟨r, hr, hcases⟩ := hvar v y hy
    cases hy'.symm.trans hr
    rcases hcases with ⟨rfl, hnot⟩ | hmem
    · have hopen' : s.isClosed y = false := (halike.isClosed rfl).symm.trans hopen
      obtain ⟨w, hmem, rfl⟩ | ⟨r, hr⟩ := hall v y hv hy hopen'
      · exact absurd rfl (hnot w hmem)
      · refine .inr ⟨rfl, rfl, .inr ?_⟩
        rw [hr f hf]
        exact hw.common hne hy hopen' hr
    · exact .inr ⟨rfl, rfl, .inl hmem⟩
  · obtain ⟨r, hr', hcases⟩ := hvar v y hy
    cases hy'.symm.trans hr'
    rcases hcases with ⟨rfl, -⟩ | ⟨w, hmem, rfl, -⟩
    · show f.refs[v]?.getD y.ref = y.ref
      by_cases hv : v < n
      · rw [hr f hf hv]
        rfl
      · rw [Array.getElem?_eq_none ((hw.each f hf).size.trans_le (not_lt.1 hv))]
        rfl
    · obtain ⟨-, hv, hdiffer⟩ := hws w hmem
      exact absurd ⟨y.ref, fun f hf => hr f hf hv⟩ hdiffer

/-- A block is entered where several edges meet. Variables that are not merged have to come in the same
value on all edges. -/
theorem Within.join (hlive : s0.dead = false) (hf : f ∈ flows) (hm : g.Models (A.chart.setBlock b))
    (hsame : ∀ a, assigned = some a → ∀ (v : Nat) y, v < n → s.vars[v]? = some y → a.contains v = false →
      ∃ r, ∀ f ∈ flows, f.refs[v]? = some r) (hL : Remain b L L')
    (hrun : ((liftM (MergeSet.build b flows ({ s with gen := g, dead := false }.joined n assigned)) :
        Edit MergeSet) >>= fun m => m.vars.forM (joinVar b))
      ({ s with gen := g, dead := false }.restoreFrom 0 f.refs.toList) = .ok (u, s')) :
    ∃ A', Within W V L' s0 A0 s' A' ∧ Entered b s' A' ∧ Merged b n flows s A s' A' := by
  obtain ⟨m, t, hlift, hjoin⟩ := bind_ok hrun
  obtain ⟨hbuild, ht⟩ := lift_ok hlift
  subst t
  obtain ⟨ms, hms, rfl⟩ := MergeSet.build_ok hbuild
  obtain ⟨hmerged, hothers⟩ := MergeSet.differing_ok hms
  have hvar : ∀ m ∈ ms, ∃ (v : Nat) (y : Var), m.var = v ∧ v < n ∧ s.vars[v]? = some y ∧
      s.isClosed y = false := by
    intro m hm
    obtain ⟨v, y, hv, hlt, hy, hopen, -⟩ := mem_joined.1 (hmerged m hm).1
    exact ⟨v, y, hv, hlt, hy, hopen⟩
  have hopened := opened_nil (t := { s with gen := g, dead := false }.restoreFrom 0 f.refs.toList)
    (by rw [Sketch.restoreFrom_eq]; exact hm) h.drawn.shows.consistent hw.pending.lt hw.pending.phis
  have hkinds : ∀ m ∈ ms, ∃ (v : Nat) (y : Var), m.var = v ∧
      ({ s with gen := g, dead := false }.restoreFrom 0 f.refs.toList).vars[v]? = some y ∧
        y.ty.kind ≠ .invalid := by
    intro m hm
    obtain ⟨v, y, hv, -, hy, -⟩ := hvar m hm
    exact ⟨v, _, hv, restored_vars (s := { s with gen := g, dead := false }) f.refs hy, (h.drawn.ty v y hy).2⟩
  have hsources : ∀ m ∈ ms, ∀ e ∈ m.incoming, 0 ≤ e.source ∧ e.source < A.chart.size := by
    intro m hm e he
    obtain ⟨f', hf', hsource, -⟩ := (MergeSet.incoming_ok (hmerged m hm).2.1).2.1 e he
    obtain ⟨p, hp, -, hedge, -⟩ := (hw.each f' hf').source
    rw [hsource, hp]
    exact ⟨Int.natCast_nonneg p, Int.ofNat_lt.2 (Sheet.lt_of_edge h.drawn.shows.consistent hedge)⟩
  obtain ⟨ws, c', ho, hall, hfrom⟩ := joinVars_ok hopened hw.pending.lt hkinds hsources hjoin
  refine h.meet hleft hw hb hlive hf ho (fun w hmem => ?_) (fun v y hv hy hopen => ?_) hL
  · obtain ⟨m, hm, hmw, hin⟩ := hfrom w hmem
    obtain ⟨v, y, hv, hlt, hy, hopen⟩ := hvar m hm
    obtain rfl : w.var = v := Int.ofNat_inj.1 (hmw.symm.trans hv)
    obtain ⟨z, hz, hty⟩ := ho.ty w hmem
    obtain rfl := Option.some.inj
      (hz.symm.trans (restored_vars (s := { s with gen := g, dead := false }) f.refs hy))
    obtain ⟨-, hincoming, hdiffer⟩ := hmerged m hm
    rw [hmw] at hincoming hdiffer
    refine ⟨hw.joined hy hopen hty (hin ▸ hincoming), hlt, fun ⟨r, hr⟩ => hdiffer ⟨r, fun f hf => ?_⟩⟩
    exact fetch_eq_ok_iff.2 (hr f hf)
  · by_cases hjoined : (v : Int) ∈ { s with gen := g, dead := false }.joined n assigned
    · rcases hothers v hjoined with ⟨m, hm, hmv⟩ | ⟨r, hr⟩
      · obtain ⟨w, hmem, hmw⟩ := hall m hm
        exact .inl ⟨w, hmem, Int.ofNat_inj.1 (hmw.symm.trans hmv)⟩
      · exact .inr ⟨r, fun f hf => fetch_eq_ok_iff.1 (hr f hf)⟩
    · refine .inr ?_
      by_contra hdiffer
      refine hjoined (mem_joined.2 ⟨v, y, rfl, hv, hy, hopen, fun a ha => ?_⟩)
      by_contra hc
      exact hdiffer (hsame a ha v y hv hy (by simpa using hc))

/-- The sketch goes on at a block where the edges of the flows meet. -/
theorem merge_ok (hlive : flows ≠ [] → s0.dead = false)
    (hsame : ∀ a, assigned = some a → ∀ (v : Nat) y, v < n → s.vars[v]? = some y → a.contains v = false →
      ∃ r, ∀ f ∈ flows, f.refs[v]? = some r) (hL : Remain b L L')
    (hrun : merge b flows n assigned s = .ok (u, s')) :
    ∃ A', Within W V L' s0 A0 s' A' ∧ Entered b s' A' ∧ Merged b n flows s A s' A' := by
  obtain ⟨_, t, hset, hrun⟩ := bind_ok hrun
  obtain ⟨g, hg, rfl⟩ := setBlock_ok hset
  have hm : g.Models (A.chart.setBlock b) := by
    obtain ⟨g', hg', hm⟩ := h.drawn.shows.setBlock hw.pending
    cases hg.symm.trans hg'
    exact hm
  rcases flows with _ | ⟨f, _ | ⟨f', flows⟩⟩
  · cases hrun
    have halike : s.Alike { s with gen := g, dead := true } := { alike_gen s g with }
    obtain ⟨hwithin, hentered, -⟩ := h.bury { s with gen := g, dead := true } hleft hw hb hg
      halike rfl rfl (fun v y hy => (h.drawn.ty v y hy).1) hL
    exact ⟨_, hwithin, hentered, halike, rfl, rfl, rfl, Sheet.grows_bury hw.pending.exit,
      iff_of_true rfl rfl, fun hne => absurd rfl hne, fun hne => absurd rfl hne,
      fun v y y' hy hy' _ => by cases hy.symm.trans hy'; rfl⟩
  · cases hrun
    refine h.meet (f := f) (g := g) hleft hw hb (hlive (List.cons_ne_nil _ _))
      List.mem_cons_self
      (opened_nil (c := A.chart) ?_ h.drawn.shows.consistent hw.pending.lt hw.pending.phis)
      nofun (fun v y hv hy _ => .inr ?_) hL
    · rw [Sketch.restoreFrom_eq]
      exact hm
    · have hlt : v < f.refs.size := (hw.each f List.mem_cons_self).size ▸ hv
      refine ⟨f.refs[v], fun f' hf' => ?_⟩
      rw [List.mem_singleton.1 hf']
      exact Array.getElem?_eq_getElem hlt
  · exact h.join (f := f) hleft hw hb (hlive (List.cons_ne_nil _ _)) List.mem_cons_self hm hsame hL hrun

end

/-! ## Heads of loops -/

/-- The sketch goes on at the head of a loop, which keeps every variable in scope in a value of its
own. -/
structure Begun (b : Label) (phis : List Ref) (s : Sketch) (A : Sheet) (s' : Sketch) (A' : Sheet) :
    Prop where
  alike : s.Alike s'
  size : s'.vars.size = s.vars.size
  frames : s'.frames = s.frames
  error : s'.error = s.error
  dead : s'.dead = s.dead
  grows : A.Grows 0 (fun _ => False) (· = A.chart.current) (· = b) (· = b) A'
  ready : Ready s' A' fun _ => True
  ended : EndsAt A' A.chart.current A.top (.jump b)
  heads : ¬ A'.dead b → A'.Heads b phis
  length : phis.length ≤ s.vars.size
  phis : ∀ (v : Nat) r, phis[v]? = some r → r ≠ noRef →
    ∃ x, s'.vars[v]? = some x ∧ s'.isClosed x = false ∧ A'.HasTy r x.ty

/-- The head of a loop is entered on its first edge. -/
theorem Within.head {phis : List Ref} (h : Within W V L s0 A0 s A) (hleft : A.Left)
    (hw : Awaits s A b s.vars.size [f]) (hf : ∀ (v : Nat) y, s.vars[v]? = some y → f.refs[v]? = some y.ref)
    (hb : b ∈ L) (hlive : s0.dead = false) (hdead : s.dead = false) (hm : g.Models (A.chart.setBlock b))
    (hL : Remain b L L')
    (hrun : ((s.first s.vars.size).mapM fun p => openVar b f.source p.2 p.1) { s with gen := g } =
      .ok (phis, s')) :
    ∃ A', Within W V L' s0 A0 s' A' ∧ Entered b s' A' ∧ s.Alike s' ∧ s'.vars.size = s.vars.size ∧
      s'.frames = s.frames ∧ s'.error = s.error ∧ s'.dead = s.dead ∧
        GrowsAt b A A' ∧
          AllReady s' A' ∧ A'.Heads b phis ∧ phis.length ≤ s.vars.size ∧
            ∀ (v : Nat) r, phis[v]? = some r → r ≠ noRef →
              ∃ x, s'.vars[v]? = some x ∧ s'.isClosed x = false ∧ A'.HasTy r x.ty := by
  have hsource : 0 ≤ f.source ∧ f.source < A.chart.size := by
    obtain ⟨p, hp, -, hedge, -⟩ := (hw.each f List.mem_cons_self).source
    rw [hp]
    exact ⟨Int.natCast_nonneg p, Int.ofNat_lt.2 (Sheet.lt_of_edge h.drawn.shows.consistent hedge)⟩
  have hopened := opened_nil (t := { s with gen := g }) hm h.drawn.shows.consistent hw.pending.lt
    hw.pending.phis
  obtain ⟨c', ho, hlen, hclosed⟩ := openVars_ok hopened hw.pending.lt
    (fun p hp => ⟨(mem_first.1 hp).2, (h.drawn.ty _ _ (mem_first.1 hp).2).2⟩) hsource hrun
  rw [List.nil_append] at ho
  set ws := opened f.source (s.first s.vars.size) phis with hws
  -- The value at a place of the list is that of the variable with the number of the place.
  have hmem : ∀ (v : Nat) r, (∃ w ∈ ws, w.var = v ∧ w.value = r) ↔ phis[v]? = some r ∧ r ≠ noRef := by
    intro v r
    constructor
    · rintro ⟨w, hw, rfl, rfl⟩
      obtain ⟨q, hq, hne, rfl⟩ := mem_opened.1 hw
      obtain ⟨i, hi⟩ := List.mem_iff_getElem?.1 hq
      obtain ⟨hfirst, hphi⟩ := List.getElem?_zip_eq_some.1 hi
      obtain ⟨-, -, rfl⟩ := first_getElem?.1 hfirst
      exact ⟨hphi, hne⟩
    · rintro ⟨hphi, hne⟩
      have hlt : v < (s.first s.vars.size).length := hlen ▸ (List.getElem?_eq_some_iff.1 hphi).1
      have hfirst := List.getElem?_eq_getElem hlt
      obtain ⟨-, -, hv⟩ := first_getElem?.1 hfirst
      have hzip := List.getElem?_zip_eq_some (z := (_, r)).2 ⟨hfirst, hphi⟩
      exact ⟨_, mem_opened.2 ⟨_, List.mem_of_getElem? hzip, hne, rfl⟩, hv, rfl⟩
  have hmade : ∀ w ∈ ws, ∃ y, s.vars[w.var]? = some y ∧ s.isClosed y = false ∧ w.ty = y.ty ∧
      w.incoming = [⟨f.source, y.ref⟩] := by
    intro w hw
    obtain ⟨q, hq, hne, rfl⟩ := mem_opened.1 hw
    have hy := (mem_first.1 (List.of_mem_zip hq).1).2
    refine ⟨q.1.1, hy, ?_, rfl, rfl⟩
    cases hc : s.isClosed q.1.1 with
    | false => rfl
    | true => exact absurd ((hclosed q hq).2 hc) hne
  have hall : ∀ (v : Nat) y, s.vars[v]? = some y → s.isClosed y = false → ∃ w ∈ ws, w.var = v := by
    intro v y hy hopen
    have hfirst : (s.first s.vars.size)[v]? = some (y, v) :=
      first_getElem?.2 ⟨(Array.getElem?_eq_some_iff.1 hy).1, hy, rfl⟩
    have hlt : v < phis.length := hlen ▸ (List.getElem?_eq_some_iff.1 hfirst).1
    have hzip : ((y, v), phis[v]) ∈ (s.first s.vars.size).zip phis :=
      List.mem_of_getElem? (List.getElem?_zip_eq_some.2 ⟨hfirst, List.getElem?_eq_getElem hlt⟩)
    have hne : phis[v] ≠ noRef := fun he => by
      have : s.isClosed y = true := (hclosed _ hzip).1 he
      rw [hopen] at this
      cases this
    exact ⟨_, mem_opened.2 ⟨_, hzip, hne, rfl⟩, rfl⟩
  have hrest : s' = { s with gen := s'.gen, vars := s'.vars } := ho.rest
  have halike : s.Alike s' := by
    rw [hrest]
    refine ⟨rfl, rfl, rfl, rfl, rfl, rfl, rfl, rfl, fun v y hy => ?_⟩
    obtain ⟨r, hr, -⟩ := ho.vars v y hy
    exact ⟨_, hr, rfl, rfl⟩
  have hg : GrowsAt b A
      (A.enter b (fun v r => ∃ w ∈ ws, w.var = v ∧ w.value = r) c') := Sheet.grows_enter ho.opening.opens
  have hvalue : ∀ w ∈ ws, ∀ y, s.vars[w.var]? = some y →
      (A.enter b (fun v r => ∃ w ∈ ws, w.var = v ∧ w.value = r) c').HasTy w.value y.ty := by
    intro w hw y hy
    obtain ⟨z, hz, -, hty, -⟩ := hmade w hw
    cases hz.symm.trans hy
    exact ⟨(ho.opening.opens.fresh _ (List.mem_map_of_mem hw)).2, (ho.opening.ty w hw).trans hty⟩
  have hvars : ∀ (v : Nat) y', s'.vars[v]? = some y' →
      (A.enter b (fun v r => ∃ w ∈ ws, w.var = v ∧ w.value = r) c').HasTy y'.ref y'.ty := by
    intro v y' hy'
    obtain ⟨y, hy, -⟩ := halike.back ho.size hy'
    obtain ⟨r, hr, hcases⟩ := ho.vars v y hy
    cases hy'.symm.trans hr
    rcases hcases with ⟨rfl, -⟩ | ⟨w, hw, rfl, rfl⟩
    · exact hg.hasTy (h.drawn.ty v y hy).1
    · exact hvalue w hw y hy
  have hjoined : ∀ w ∈ ws, A.Joined b w := by
    intro w hmem
    obtain ⟨y, hy, hopen, hty, hin⟩ := hmade w hmem
    refine hw.joined hy hopen hty ?_
    have hfetch : fetch f.refs w.var = .ok y.ref := fetch_eq_ok_iff.2 (hf _ y hy)
    rw [hin, MergeSet.incoming, List.mapM_cons, hfetch]
    rfl
  obtain ⟨hwithin, hentered, -⟩ := h.enter _ hleft hw.toWaiting hb hlive
    (hw.exists_edge (List.cons_ne_nil _ _)) ho.models ho.opening hjoined (fun _ _ hk => .inl hk)
    (fun w hw => ⟨w, hw, rfl, rfl⟩) halike ho.size
    (hrest ▸ hdead) hvars hL
  refine ⟨_, hwithin, hentered, halike, ho.size, by rw [hrest], by rw [hrest], by rw [hrest], hg,
    hentered.ready fun _ v y' _ hy' hopen _ => .inr ⟨rfl, rfl, ?_⟩, ⟨fun v r => ?_, ?_⟩, ?_,
    fun v r hr hne => ?_⟩
  · obtain ⟨y, hy, -⟩ := halike.back ho.size hy'
    obtain ⟨r, hr, hcases⟩ := ho.vars v y hy
    cases hy'.symm.trans hr
    rcases hcases with ⟨-, hnot⟩ | hmem
    · obtain ⟨w, hw, hwv⟩ := hall v y hy ((halike.isClosed rfl).symm.trans hopen)
      exact absurd hwv (hnot w hw)
    · exact hmem
  · rw [← hmem]
    refine ⟨fun hk => ?_, fun hk => .inr ⟨rfl, rfl, hk⟩⟩
    rcases hk with hk | ⟨-, -, hk⟩
    · exact absurd hk (hw.pending.unknown 0 v r)
    · exact hk
  · exact ho.opening.opens.phis.trans (map_value_opened hlen)
  · rw [hlen, Sketch.first]
    simp
  · obtain ⟨w, hw, rfl, rfl⟩ := (hmem v r).2 ⟨hr, hne⟩
    obtain ⟨y, hy, hopen, -⟩ := hmade w hw
    obtain ⟨q, hq, -⟩ := ho.vars _ y hy
    exact ⟨_, hq, (halike.isClosed rfl).trans hopen, hvalue w hw y hy⟩

theorem enterLoop_ok {k k' : Loop} {position : Position} (h : Within W V L s0 A0 s A)
    (hr : AllReady s A) (hlive : s.dead = false → s0.dead = false)
    (hw : Awaits s A b s.vars.size []) (hhead : k.head = b) (hsize : k.size = s.vars.size)
    (hphis : k.phis = []) (hb : b ∈ L)
    (hL : Remain b L L')
    (hrun : enterLoop k position s = .ok (k', s')) :
    ∃ A' phis, k' = { k with phis } ∧ Within W V L' s0 A0 s' A' ∧ Entered b s' A' ∧
      Begun b phis s A s' A' := by
  have hc := A.chart.exits_terminate (.jump b)
  have hjump := h.jump position hr hw.pending (h.own b hb)
  have hrun' : (setBlock k.head >>= fun _ => if s.dead then pure k else do
      let phis ← (s.first k.size).mapM fun p => openVar k.head s.gen.current p.2 p.1
      return { k with phis } : Edit Loop)
        { s with gen := (s.gen.setPosition (some position)).terminate (.jump k.head) } = .ok (k', s') :=
    hrun
  rw [hhead, hsize] at hrun'
  set s1 : Sketch := { s with gen := (s.gen.setPosition (some position)).terminate (.jump b) }
  set A1 := A.leave (A.chart.terminate (.jump b))
  have hleft : A1.Left := Sheet.left_leave hc
  have hw1 : Awaits s1 A1 b s.vars.size (s.leaving s.vars.size) :=
    hw.leave h.drawn (hr.mono fun _ _ => trivial) hc hjump.drawn.shows.sound (List.mem_singleton_self _)
  have hgrows : ∀ {B : Sheet},
      GrowsAt b A1 B →
        A.Grows 0 (fun _ => False) (· = A.chart.current) (· = b) (· = b) B := fun hB =>
    ((hr.grows_leave hc).mono (fun _ _ hv => hv) (fun _ _ ht => .inl ht) (fun _ _ hj => absurd hj id)
      fun y _ hy => Int.ofNat_inj.1 (List.mem_singleton.1 hy.2)).trans hB le_rfl (fun _ _ hv => hv)
        (fun _ _ ht => absurd ht id) (fun _ _ hj => hj) fun _ _ hu => absurd hu id
  have hends : ∀ {B : Sheet}, A1.Extends B → EndsAt B A.chart.current A.top (.jump b) := fun hB =>
    (endsAt_leave A (.jump b)).mono hB
  obtain ⟨_, t, hset, hrest⟩ := bind_ok hrun'
  obtain ⟨g, hg, rfl⟩ := setBlock_ok hset
  by_cases hdead : s.dead = true
  · rw [if_pos hdead] at hrest
    cases hrest
    rw [Sketch.leaving, if_pos hdead] at hw1
    obtain ⟨hwithin, hentered, -⟩ := hjump.bury { s1 with gen := g } hleft hw1 hb hg
      (alike_gen s1 g) rfl hdead (fun v y hy => (hjump.drawn.ty v y hy).1) hL
    have hg' : GrowsAt b A1 (A1.bury b) := Sheet.grows_bury hw1.pending.exit
    refine ⟨_, [], by rw [← hphis], hwithin, hentered, alike_gen s g, rfl, rfl, rfl, rfl, hgrows hg',
      hentered.ready fun hlive => ?_, hends hg'.ext, fun hd => absurd (.inr rfl) hd, Nat.zero_le _,
      fun v r hr => by cases hr⟩
    exact absurd hdead (by simp [show s.dead = false from hlive])
  · have hdead' : s.dead = false := by simpa using hdead
    rw [if_neg hdead] at hrest
    rw [Sketch.leaving, if_neg hdead] at hw1
    have hm : g.Models (A1.chart.setBlock b) := by
      obtain ⟨g', hg', hm⟩ := hjump.drawn.shows.setBlock hw1.pending
      cases hg.symm.trans hg'
      exact hm
    obtain ⟨phis, t, hopen, hrest⟩ := bind_ok hrest
    cases hrest
    have hflow : ∀ (v : Nat) y, s.vars[v]? = some y → (s.flow s.vars.size).refs[v]? = some y.ref := by
      intro v y hy
      rw [show (s.flow s.vars.size).refs = s.snapshot s.vars.size from rfl, Sketch.snapshot_getElem?, hy,
        if_pos (Array.getElem?_eq_some_iff.1 hy).1]
      rfl
    obtain ⟨A', hwithin, hentered, halike, hsize', hframes, herror, hdead'', hg', hready, hheads, hlen,
      hphis⟩ := hjump.head hleft hw1 hflow hb (hlive hdead') hdead' hm hL hopen
    exact ⟨A', phis, by rw [hhead, hsize], hwithin, hentered, { halike with }, hsize', hframes, herror,
      hdead'', hgrows hg', hready, hends hg'.ext, fun _ => hheads, hlen, hphis⟩

end Describe

end Codesmith
