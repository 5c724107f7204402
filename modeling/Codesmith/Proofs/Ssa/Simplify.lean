import Codesmith.Proofs.Chart.Simplify
import Codesmith.Proofs.Ssa.Verify

/-!
# Trivial phis

The search for trivial phis keeps an invariant: following a reference ends at a value that is not
replaced, and all values that a replaced phi merges lead to where the phi leads. How thorough the search
is does not matter for this. The invariant makes the search a replacement of the chart, and the function
without the trivial phis draws the simplified chart.
-/

namespace Codesmith.Ssa

open Gen (Act Chart ChartBlock Home)

/-! ## Following references -/

namespace Replaced

variable {s : Replaced}
variable {x : Ref}

theorem follow_of_none (h : s.value? x = none) (n : Nat) : s.follow n x = x := by
  cases n with
  | zero => rfl
  | succ n => rw [follow, h]

/-- Every reference leads to one that is not replaced in as many steps as there are replaced phis. -/
structure Ends (s : Replaced) : Prop where
  free : ∀ x, s.value? (s.follow s.count x) = none
  count : s.values.countP Option.isSome = s.count

theorem follow_add (m n : Nat) (x : Ref) : s.follow (m + n) x = s.follow n (s.follow m x) := by
  induction m generalizing x with
  | zero => rw [Nat.zero_add]; rfl
  | succ m ih =>
    rw [Nat.add_right_comm, follow, follow]
    cases hx : s.value? x with
    | none => exact (follow_of_none hx n).symm
    | some y => exact ih y

theorem Ends.apply_eq (h : s.Ends) (x : Ref) : s.apply x = s.follow s.count x := by
  have hle : s.count ≤ s.values.size := h.count ▸ Array.countP_le_size
  obtain ⟨k, hk⟩ := Nat.exists_eq_add_of_le hle
  rw [apply, hk, follow_add, follow_of_none (h.free x)]

theorem Ends.value?_apply (h : s.Ends) (x : Ref) : s.value? (s.apply x) = none :=
  h.apply_eq x ▸ h.free x

theorem Ends.apply_eq_self_iff (h : s.Ends) : s.apply x = x ↔ s.value? x = none := by
  constructor
  · intro he
    exact he ▸ h.value?_apply x
  · intro hx
    rw [h.apply_eq, follow_of_none hx]

theorem ends_empty (n : Nat) : (empty n).Ends := by
  have hvalue : ∀ x, (empty n).value? x = none := by
    intro x
    simp only [value?, empty]
    cases x with
    | ofNat k => by_cases hk : k < n <;> simp [fetch?, hk]
    | negSucc k => rfl
  exact ⟨fun x => hvalue _, by simp [empty]⟩

section Insert

variable {id : Nat} {v : Ref} (hid : id < s.values.size) (hnew : s.value? id = none)
  (hv : s.value? v = none) (hne : v ≠ id)
include hid

theorem insert_value? (x : Ref) : (s.insert id v).value? x = if x = id then some v else s.value? x := by
  cases x with
  | ofNat k =>
    simp only [value?, insert, Int.ofNat_eq_natCast, fetch?_natCast, Array.getElem?_setIfInBounds,
      Int.natCast_inj]
    by_cases hk : id = k
    · subst hk
      simp [hid]
    · simp [hk, Ne.symm hk]
  | negSucc k => rfl

include hnew hv hne

theorem follow_insert (n : Nat) (x : Ref) (hx : s.value? (s.follow n x) = none) :
    (s.insert id v).follow (n + 1) x = if s.follow n x = id then v else s.follow n x := by
  have hstay : (s.insert id v).value? v = none := by rw [insert_value? hid, if_neg hne, hv]
  have hself : ∀ (m : Nat) {y : Ref}, s.value? y = none →
      (s.insert id v).follow (m + 1) y = if y = id then v else y := by
    intro m y hy
    rw [follow, insert_value? hid]
    by_cases hyi : y = id
    · simp only [hyi, if_true]
      exact follow_of_none hstay m
    · simp only [hyi, if_false, hy]
  induction n generalizing x with
  | zero => exact hself 0 hx
  | succ n ih =>
    cases hy : s.value? x with
    | none => rw [follow_of_none hy, hself _ hy]
    | some y =>
      have hxi : x ≠ id := by
        rintro rfl
        rw [hnew] at hy
        cases hy
      have hfollow : s.follow (n + 1) x = s.follow n y := by rw [follow, hy]
      rw [hfollow] at hx ⊢
      rw [follow, insert_value? hid, if_neg hxi, hy]
      exact ih y hx

theorem Ends.insert (h : s.Ends) : (s.insert id v).Ends := by
  refine ⟨fun x => ?_, ?_⟩
  · rw [show (s.insert id v).count = s.count + 1 from rfl,
      follow_insert hid hnew hv hne _ _ (h.free x), insert_value? hid]
    split
    · exact hv
    · exact h.free x
  · have hget : s.values[id] = none := by
      have := hnew
      rw [value?, fetch?_natCast, Array.getElem?_eq_getElem hid] at this
      simpa using this
    have hset : s.values.setIfInBounds id (some v) = s.values.set id (some v) hid := by
      simp [Array.setIfInBounds, hid]
    rw [Replaced.insert, hset]
    simp only
    rw [Array.countP_set hid, hget, h.count]
    simp

theorem Ends.apply_insert (h : s.Ends) (x : Ref) :
    (s.insert id v).apply x = if s.apply x = id then v else s.apply x := by
  rw [(h.insert hid hnew hv hne).apply_eq, h.apply_eq]
  exact follow_insert hid hnew hv hne _ _ (h.free x)

end Insert

end Replaced

/-! ## The search -/

/-- What the search knows of the phis it may replace: a replaced phi merges something, and everything
that it merges leads to where the phi leads. -/
structure PhiSearch.Sound (f : Func) (phis : List Nat) (w : PhiSearch) : Prop where
  size : w.replaced.values.size = f.entries.size
  ends : w.replaced.Ends
  real : ∀ x, w.replaced.apply x = noRef → x = noRef
  merged : ∀ x, w.replaced.value? x ≠ none → ∃ q : Nat, x = q ∧ q ∈ phis ∧ f.branches q ≠ [] ∧
    ∀ b ∈ f.branches q, w.replaced.apply b.value = w.replaced.apply q
  readers : ∀ k : Nat, ∀ u ∈ w.readers.getD k [], u ∈ phis
  queue : ∀ u ∈ w.queue, u ∈ phis

namespace Func

variable {f : Func} {c : Chart} {phis : List Nat}
variable {id : Nat} {v : Ref} {σ : Ref → Ref}

/-- The only value is one of those that are merged, and there is no other besides the phi. -/
theorem soleValue_spec {ren : Ref → Ref} {bs : List PhiBranch} {seen : Ref} (h : soleValue id ren bs seen = v)
    (hv : v ≠ noRef) : (∀ b ∈ bs, ren b.value = id ∨ ren b.value = v ∨ ren b.value = noRef) ∧
      (seen ≠ noRef → v = seen) ∧
      (seen = noRef → ∃ b ∈ bs, ren b.value = v ∧ v ≠ id) := by
  induction bs generalizing seen with
  | nil =>
    obtain rfl : seen = v := h
    exact ⟨by simp, fun _ => rfl, fun hs => absurd hs hv⟩
  | cons b bs ih =>
    rw [soleValue] at h
    split at h
    · rename_i hskip
      obtain ⟨hall, hseen, hfound⟩ := ih h
      refine ⟨List.forall_mem_cons.2 ⟨?_, hall⟩, hseen, fun hs => ?_⟩
      · rcases hskip with hid | hs
        · exact .inl hid
        · by_cases hn : seen = noRef
          · exact .inr (.inr (hs.trans hn))
          · exact .inr (.inl (hs.trans (hseen hn).symm))
      · obtain ⟨b', hb', hspec⟩ := hfound hs
        exact ⟨b', List.mem_cons_of_mem _ hb', hspec⟩
    · rename_i hskip
      split at h
      · exact absurd h.symm hv
      rename_i hs
      rw [not_not] at hs
      have hx : ren b.value ≠ noRef := fun he => hskip (.inr (he.trans hs.symm))
      obtain ⟨hall, hseen, -⟩ := ih h
      have hvx := hseen hx
      refine ⟨List.forall_mem_cons.2 ⟨.inr (.inl hvx.symm), hall⟩, fun hn => absurd hs hn,
        fun _ => ⟨b, List.mem_cons_self, hvx.symm, ?_⟩⟩
      rw [hvx]
      exact fun he => hskip (.inl he)

theorem mem_foldl_insert {us : List Nat} {q : Std.TreeSet Nat} (hus : ∀ u ∈ us, u ∈ phis)
    (hq : ∀ u ∈ q, u ∈ phis) : ∀ u ∈ us.foldl (fun q u => q.insert u) q, u ∈ phis := by
  induction us generalizing q with
  | nil => exact hq
  | cons y us ih =>
    refine ih (fun u hu => hus u (List.mem_cons_of_mem _ hu)) fun u hu => ?_
    rcases Std.TreeSet.mem_insert.1 hu with he | hu
    · exact compare_eq_iff_eq.1 he ▸ hus y List.mem_cons_self
    · exact hq u hu

/-- Replacing a trivial phi keeps what is known. -/
theorem sound_replace {w : PhiSearch} (h : w.Sound f phis) (hid : id ∈ phis) (hlt : id < f.entries.size)
    (hvals : ∀ b ∈ f.branches id, b.value ≠ noRef) (hnew : w.replaced.value? id = none) (hv : v ≠ noRef)
    (hsole : soleValue id w.replaced.apply (f.branches id) noRef = v) : (w.replace id v).Sound f phis := by
  obtain ⟨hall, -, hfound⟩ := soleValue_spec hsole hv
  obtain ⟨b, hb, hbv, hne⟩ := hfound rfl
  have hlt' : id < w.replaced.values.size := h.size ▸ hlt
  have hvfree : w.replaced.value? v = none := hbv ▸ h.ends.value?_apply b.value
  have happly := h.ends.apply_insert hlt' hnew hvfree hne
  have hown : w.replaced.apply id = id := h.ends.apply_eq_self_iff.2 hnew
  refine ⟨?_, h.ends.insert hlt' hnew hvfree hne, fun x hx => ?_, fun x hx => ?_, fun k u hu => ?_,
    fun u hu => ?_⟩
  · exact Array.size_setIfInBounds.trans h.size
  · rw [PhiSearch.replace, happly] at hx
    split at hx
    · exact absurd hx hv
    · exact h.real x hx
  · simp only [PhiSearch.replace] at hx ⊢
    simp only [happly]
    rw [Replaced.insert_value? hlt'] at hx
    split at hx
    · rename_i hxid
      refine ⟨id, hxid, hid, List.ne_nil_of_mem hb, fun b' hb' => ?_⟩
      rw [hown, if_pos rfl]
      rcases hall b' hb' with hb'' | hb'' | hb''
      · rw [if_pos hb'']
      · rw [hb'', if_neg hne]
      · exact absurd (h.real _ hb'') (hvals b' hb')
    · obtain ⟨q, rfl, hq, hbranches, hmerged⟩ := h.merged x hx
      exact ⟨q, rfl, hq, hbranches, fun b' hb' => by rw [hmerged b' hb']⟩
  · simp only [PhiSearch.replace, Array.getD_eq_getD_getElem?, Array.getElem?_modify] at hu
    split at hu
    · cases hk : w.readers[k]? with
      | none => rw [hk] at hu; exact absurd hu List.not_mem_nil
      | some us =>
        rw [hk, Option.map_some, Option.getD_some] at hu
        have hus : ∀ u ∈ us, u ∈ phis := fun u hu => h.readers k u (by
          rw [Array.getD_eq_getD_getElem?, hk]
          exact hu)
        split at hu
        · exact hus u hu
        · rcases List.mem_append.1 hu with hu | hu
          · exact h.readers id u (by rwa [Array.getD_eq_getD_getElem?])
          · exact hus u hu
    · exact h.readers k u (by rwa [Array.getD_eq_getD_getElem?])
  · refine mem_foldl_insert (fun u hu => ?_) h.queue u hu
    exact h.readers id u (List.mem_filter.1 hu).1

section Loop

variable (hlt : ∀ id ∈ phis, id < f.entries.size)
  (hvals : ∀ id ∈ phis, ∀ b ∈ f.branches id, b.value ≠ noRef)
variable {w : PhiSearch} {id : Nat}
include hlt hvals

theorem sound_inspect (h : w.Sound f phis) (hid : id ∈ phis) : (f.inspect w id).Sound f phis := by
  have herase : ({ w with queue := w.queue.erase id } : PhiSearch).Sound f phis :=
    { h with queue := fun u hu => h.queue u (Std.TreeSet.mem_erase.1 hu).2 }
  unfold inspect
  dsimp only
  split
  · exact herase
  rename_i hnot
  split
  · exact herase
  · rename_i hv
    refine sound_replace herase hid (hlt id hid) (hvals id hid) ?_ hv rfl
    rwa [Replaced.contains, Bool.not_eq_true, Option.isSome_eq_false_iff, Option.isNone_iff_eq_none] at hnot

theorem sound_loop (fuel : Nat) (h : w.Sound f phis) :
    ∃ w' : PhiSearch, f.replaceTrivial fuel w = w'.replaced ∧ w'.Sound f phis := by
  induction fuel generalizing w with
  | zero => exact ⟨w, rfl, h⟩
  | succ fuel ih =>
    rw [replaceTrivial]
    cases hmin : w.queue.min? with
    | none => exact ⟨w, rfl, h⟩
    | some id =>
      have hid := (Std.TreeSet.min?_eq_some_iff_mem_and_forall.1 hmin).1
      exact ih (sound_inspect hlt hvals h (h.queue id hid))

omit hlt hvals in
theorem mem_noteReads {readers : Array (List Nat)} (hid : id ∈ phis)
    (h : ∀ k : Nat, ∀ u ∈ readers.getD k [], u ∈ phis) :
    ∀ k : Nat, ∀ u ∈ (f.noteReads readers id).getD k [], u ∈ phis := by
  unfold noteReads
  induction f.branches id generalizing readers with
  | nil => exact h
  | cons b bs ih =>
    refine ih ?_
    dsimp only
    split
    · exact h
    intro k u hu
    rw [Array.getD_eq_getD_getElem?, Array.getElem?_modify] at hu
    split at hu
    · cases hk : readers[k]? with
      | none => rw [hk] at hu; exact absurd hu List.not_mem_nil
      | some us =>
        rw [hk, Option.map_some, Option.getD_some] at hu
        rcases List.mem_cons.1 hu with rfl | hu
        · exact hid
        · exact h k u (by rwa [Array.getD_eq_getD_getElem?, hk])
    · exact h k u (by rwa [Array.getD_eq_getD_getElem?])

omit hlt hvals in
theorem sound_start : (f.startSearch phis).Sound f phis := by
  have happly : ∀ x, (Replaced.empty f.entries.size).value? x = none := fun x => by
    have := (Replaced.ends_empty f.entries.size).free x
    rwa [show (Replaced.empty f.entries.size).count = 0 from rfl] at this
  have hreaders : ∀ (ids : List Nat) (readers : Array (List Nat)), (∀ id ∈ ids, id ∈ phis) →
      (∀ k : Nat, ∀ u ∈ readers.getD k [], u ∈ phis) →
        ∀ k : Nat, ∀ u ∈ (ids.foldl f.noteReads readers).getD k [], u ∈ phis := by
    intro ids
    induction ids with
    | nil => exact fun readers _ h => h
    | cons id ids ih =>
      exact fun readers hids h => ih _ (fun i hi => hids i (List.mem_cons_of_mem _ hi))
        (mem_noteReads (hids id List.mem_cons_self) h)
  refine ⟨Array.size_replicate, Replaced.ends_empty _, fun x hx => ?_,
    fun x hx => absurd (happly x) hx, hreaders phis _ (fun _ h => h) fun k u hu => ?_,
    mem_foldl_insert (fun _ h => h) fun u hu => ?_⟩
  · rwa [startSearch, (Replaced.ends_empty _).apply_eq_self_iff.2 (happly x)] at hx
  · rw [Array.getD_eq_getD_getElem?, Array.getElem?_replicate] at hu
    split at hu <;> exact absurd hu List.not_mem_nil
  · exact absurd hu (by simp)

end Loop

/-! ## The replacement of the chart -/

theorem mem_phisOf_iff (h : f.Draws c) (hc : c.Consistent) : (id ∈ f.phisOf fun l => f.reachable l) ↔
      ∃ l, c.home id = some ⟨l, none⟩ ∧ Graph.Reaches c.succs l := by
  rw [mem_phisOf]
  constructor
  · rintro ⟨l, b, hb, hl, hid⟩
    have hl := (h.reach l).1 hl
    obtain ⟨b', hb', hs⟩ := h.block l hl
    cases hb.symm.trans hb'
    exact ⟨l, (hc.phi l id).1 (hs.phis ▸ List.mem_map_of_mem hid), hl⟩
  · rintro ⟨l, hhome, hl⟩
    obtain ⟨b, hb, hs⟩ := h.block l hl
    refine ⟨l, b, hb, (h.reach l).2 hl, ?_⟩
    obtain ⟨n, hn, heq⟩ := List.mem_map.1 (hs.phis ▸ (hc.phi l id).2 hhome)
    rwa [← Int.natCast_inj.1 heq]

/-- The branches of a phi are what it joins from reached blocks. -/
theorem Draws.mem_branches (h : f.Draws c) {l : Label} (hid : c.home id = some ⟨l, none⟩)
    (hl : Graph.Reaches c.succs l) {b : PhiBranch} :
    b ∈ f.branches id ↔ ∃ e ∈ c.incoming id, f.reachable e.source = true ∧ branchOf e = b := by
  rw [branches, h.phi id l hid hl, Option.getD_some, List.mem_map]
  simp only [List.mem_filter, and_assoc]

theorem Draws.reachable_source_iff (h : f.Draws c) (hc : c.Consistent) {e : EdgeValue}
    (he : e ∈ c.incoming id) : f.reachable e.source = true ↔ Graph.Reaches c.succs e.source.toNat := by
  obtain ⟨n, hn⟩ := Int.eq_ofNat_of_zero_le (hc.source id e he).1
  rw [hn, h.reach, Int.toNat_natCast]

/-- The search in the function of a well-formed chart is sound. -/
theorem Draws.sound (h : f.Draws c) (hc : c.Consistent) (hw : c.WellFormed) :
    ∃ w : PhiSearch, f.trivialPhis = w.replaced ∧ w.Sound f (f.phisOf fun l => f.reachable l) := by
  have hvals : ∀ id ∈ f.phisOf fun l => f.reachable l, ∀ b ∈ f.branches id, b.value ≠ noRef := by
    intro id hid b hb hno
    obtain ⟨l, hhome, hl⟩ := (mem_phisOf_iff h hc).1 hid
    obtain ⟨e, he, hr, rfl⟩ := (h.mem_branches hhome hl).1 hb
    have hj := hw.joins l hl id ((hc.phi l id).2 hhome)
    exact (hj.each e he ((h.reachable_source_iff hc he).1 hr)).2.2.home_ne_none
      ((congrArg c.home hno).trans hc.home_noRef)
  have hlt : ∀ id ∈ f.phisOf fun l => f.reachable l, id < f.entries.size := by
    intro id hid
    obtain ⟨l, hhome, -⟩ := (mem_phisOf_iff h hc).1 hid
    obtain ⟨e, he, -⟩ := h.home id _ hhome
    exact (Array.getElem?_eq_some_iff.1 he).1
  exact sound_loop hlt hvals _ sound_start

theorem Draws.trivialPhis (h : f.Draws c) (hc : c.Consistent) (hw : c.WellFormed) (hentry : c.EntryOnce) :
    f.trivialPhis.Ends ∧ c.Replaces f.trivialPhis.apply := by
  obtain ⟨w, hw', hsound⟩ := h.sound hc hw
  rw [hw']
  refine ⟨hsound.ends, fun x => ?_, fun x hx => ?_⟩
  · exact hsound.ends.apply_eq_self_iff.2 (hsound.ends.value?_apply x)
  · obtain ⟨q, rfl, hq, hne, hmerged⟩ := hsound.merged x (mt hsound.ends.apply_eq_self_iff.2 hx)
    obtain ⟨l, hhome, hl⟩ := (mem_phisOf_iff h hc).1 hq
    refine ⟨l, hhome, hl, ?_, fun e he hr => ?_⟩
    · -- Something is merged, so an edge leads to the block.
      rintro rfl
      obtain ⟨b, hb⟩ := List.exists_mem_of_ne_nil _ hne
      obtain ⟨e, he, hr, -⟩ := (h.mem_branches hhome hl).1 hb
      have hj := hw.joins _ hl q ((hc.phi _ q).2 hhome)
      exact hentry _ (hj.each e he ((h.reachable_source_iff hc he).1 hr)).1
    · exact hmerged _ ((h.mem_branches hhome hl).2 ⟨e, he, (h.reachable_source_iff hc he).2 hr, rfl⟩)

/-! ## The simplified function -/

theorem mem_reachableIds : id ∈ f.reachableIds ↔
    ∃ (l : Label) (b : Block), f.blocks[l]? = some b ∧ f.reachable l = true ∧
      (id ∈ b.phis ∨ id ∈ b.code ∨ b.term = some id) := by
  simp only [reachableIds, List.mem_flatMap, Prod.exists, List.mem_zipIdx_iff_getElem?, Array.getElem?_toList]
  constructor
  · rintro ⟨b, l, hb, hid⟩
    split at hid
    · refine ⟨l, b, hb, ‹_›, ?_⟩
      simpa [or_assoc] using hid
    · cases hid
  · rintro ⟨l, b, hb, hl, hid⟩
    refine ⟨b, l, hb, ?_⟩
    rw [if_pos hl]
    simpa [or_assoc] using hid

theorem mapOperands_idem (hσ : ∀ x, σ (σ x) = σ x) (x : Expr) :
    (x.mapOperands σ).mapOperands σ = x.mapOperands σ := by
  cases x with
  | ret y => cases y <;> simp [Expr.mapOperands, hσ]
  | _ => simp [Expr.mapOperands, hσ]

/-- Renaming changes the operands of the listed expressions and nothing else. -/
theorem foldl_renameOperands {s : Replaced} (hs : ∀ x, s.apply (s.apply x) = s.apply x)
    (ids : List Nat) (f : Func) :
    ids.foldl (renameOperands s) f = { f with entries := (ids.foldl (renameOperands s) f).entries } ∧
      ∀ i : Nat, (ids.foldl (renameOperands s) f).entries[i]? = f.entries[i]?.map fun e =>
        if i ∈ ids then { e with expr := e.expr.mapOperands s.apply } else e := by
  induction ids generalizing f with
  | nil => exact ⟨rfl, fun i => by simp⟩
  | cons id ids ih =>
    obtain ⟨hsame, hget⟩ := ih (renameOperands s f id)
    refine ⟨hsame, fun i => (hget i).trans ?_⟩
    simp only [renameOperands, Array.getElem?_modify]
    by_cases hi : id = i
    · subst hi
      rw [if_pos rfl]
      cases f.entries[id]? with
      | none => rfl
      | some e => by_cases hmem : id ∈ ids <;> simp [hmem, mapOperands_idem hs]
    · rw [if_neg hi]
      simp [List.mem_cons, Ne.symm hi]

theorem targets_mapOperands (σ : Ref → Ref) (x : Expr) : (x.mapOperands σ).targets = x.targets := by
  cases x with
  | ret y => cases y <;> rfl
  | _ => rfl

theorem expr_rename (σ : Ref → Ref) (e : Gen.Exit) : (e.rename σ).expr = e.expr.mapOperands σ := by
  cases e with
  | ret y => cases y <;> rfl
  | _ => rfl

theorem act_mapOperands {ty ty' : Ref → Ty} {id : Ref} {t : Ty} {x : Expr} {a : Act}
    (h : x.act ty id t = some a) (hty : ∀ y ∈ x.operands, ty' (σ y) = ty y)
    (hid : a.out? = some id → σ id = id) : (x.mapOperands σ).act ty' id t = some (a.rename σ) := by
  cases x with
  | store p y =>
    cases h
    simp [Expr.mapOperands, Expr.act, Act.rename, hty y (by simp [Expr.operands])]
  | phi | jump | branch | ret | foreign => cases h
  | compare cond l r =>
    cases h
    simp [Expr.mapOperands, Expr.act, Act.rename, Compute.rename, hid rfl, hty l (by simp [Expr.operands])]
  | convert y =>
    cases h
    simp [Expr.mapOperands, Expr.act, Act.rename, Compute.rename, hid rfl, hty y (by simp [Expr.operands])]
  | _ =>
    cases h
    simp [Expr.mapOperands, Expr.act, Act.rename, Compute.rename, hid rfl]

section Dropped

variable {s : Replaced} {f' : Func}

theorem dropPhis_getElem? (f : Func) (s : Replaced) (l : Label) :
    (f.dropPhis s)[l]? = f.blocks[l]?.map fun b =>
      if f.reachable l then { b with phis := b.phis.filter fun id => !s.contains id } else b :=
  Array.getElem?_mapIdx

/-- The second function is the first with the replaced phis dropped and the operands of the expressions
in reached blocks renamed. -/
structure Drops (f : Func) (s : Replaced) (f' : Func) : Prop where
  same : f' = { f with blocks := f'.blocks, entries := f'.entries }
  blocks : f'.blocks = f.dropPhis s
  entries : ∀ y, f'.entryOf? y = (f.entryOf? y).map fun e =>
    if y.toNat ∈ f'.reachableIds then { e with expr := e.expr.mapOperands s.apply } else e

theorem drops_removed (hs : ∀ x, s.apply (s.apply x) = s.apply x) (f : Func) :
    f.Drops s (({ f with blocks := f.dropPhis s } : Func).reachableIds.foldl (renameOperands s)
      { f with blocks := f.dropPhis s }) := by
  obtain ⟨hsame, hget⟩ := foldl_renameOperands hs
    ({ f with blocks := f.dropPhis s } : Func).reachableIds { f with blocks := f.dropPhis s }
  have hids : (({ f with blocks := f.dropPhis s } : Func).reachableIds.foldl (renameOperands s)
      { f with blocks := f.dropPhis s }).reachableIds =
        ({ f with blocks := f.dropPhis s } : Func).reachableIds := by
    rw [hsame]
    rfl
  refine ⟨?_, ?_, fun y => ?_⟩
  · rw [hsame]
  · rw [hsame]
  · rw [hids]
    cases y with
    | negSucc k => rfl
    | ofNat k => exact hget k

theorem Drops.tyOf (h : f.Drops s f') (y : Ref) : f'.tyOf y = f.tyOf y := by
  rw [Func.tyOf, h.entries, Func.tyOf, Option.map_map]
  congr 2
  funext e
  simp only [Function.comp]
  split <;> rfl

theorem Drops.reachable (h : f.Drops s f') (b : Int) : f'.reachable b = f.reachable b := by
  rw [h.same]
  rfl

theorem Drops.targets (h : f.Drops s f') (b : Block) : f'.targets b = f.targets b := by
  rw [Func.targets, Func.targets]
  cases b.term with
  | none => rfl
  | some t =>
    simp only [h.entries, Option.map_map]
    congr 2
    funext e
    simp only [Function.comp]
    split
    · exact targets_mapOperands _ _
    · rfl

theorem Drops.succsOf (h : f.Drops s f') : f'.succsOf = f.succsOf := by
  funext l
  rw [Func.succsOf, Func.succsOf, h.blocks, dropPhis_getElem?, Option.map_map]
  congr 2
  funext b
  simp only [Function.comp]
  rw [h.targets]
  split <;> rfl

variable (hd : f.Drops s f') (h : f.Draws c) (hc : c.Consistent) (hw : c.WellFormed)
  (hends : s.Ends) (hrep : c.Replaces s.apply)
include hd h hc hw hends hrep

theorem Drops.shows {l : Label} (hl : Graph.Reaches c.succs l) :
    ∃ b, f'.blocks[l]? = some b ∧ f'.Shows b ((c.simplify s.apply).block l) := by
  obtain ⟨b, hb, hs⟩ := h.block l hl
  have hr := (h.reach l).2 hl
  have hb' : f'.blocks[l]? = some { b with phis := b.phis.filter fun id => !s.contains id } := by
    rw [hd.blocks, dropPhis_getElem?, hb, Option.map_some, if_pos hr]
  have hmem : ∀ {id : Nat}, id ∈ b.code ∨ b.term = some id → id ∈ f'.reachableIds := fun {id} hid =>
    mem_reachableIds.2 ⟨l, _, hb', (hd.reachable l).trans hr, .inr hid⟩
  have hget : ∀ {id : Nat} {e : Entry}, id ∈ b.code ∨ b.term = some id → f.entries[id]? = some e →
      f'.entries[id]? = some { e with expr := e.expr.mapOperands s.apply } := by
    intro id e hid he
    have := hd.entries id
    rwa [Func.entryOf?, Func.entryOf?, fetch?_natCast, fetch?_natCast, he, Option.map_some, Int.toNat_natCast,
      if_pos (hmem hid)] at this
  refine ⟨_, hb', ?_, ?_, ?_⟩
  · rw [Chart.simplify]
    dsimp only
    rw [← hs.phis, List.filter_map]
    refine congrArg _ (List.filter_congr fun n _ => ?_)
    rw [Replaced.contains, Function.comp]
    simp only [hends.apply_eq_self_iff]
    cases s.value? n <;> simp
  · rw [Chart.simplify]
    dsimp only
    rw [List.map_map]
    have hall : ∀ i : Nat, (b.code[i]?).map f'.act? =
        ((c.block l).code[i]?).map (some ∘ Act.rename s.apply) := by
      intro i
      have hi := hs.getElem? i
      cases ha : (c.block l).code[i]? with
      | none =>
        rw [ha] at hi
        rw [Option.map_eq_none_iff.1 hi]
        rfl
      | some a =>
        rw [ha] at hi
        obtain ⟨id, hid, hact⟩ := Option.map_eq_some_iff.1 hi
        obtain ⟨e, he, hexpr⟩ := Option.bind_eq_some_iff.1 hact
        rw [hid, Option.map_some, Option.map_some, act?, hget (.inl (List.mem_of_getElem? hid)) he]
        refine congrArg some (act_mapOperands hexpr (fun y hy => ?_) fun hout => ?_)
        · have hfits := hc.lines l a (List.mem_of_getElem? ha)
          have hy := hc.typed y (hfits.reads y (Expr.reads_of_act hexpr ▸ hy))
          rw [hd.tyOf, h.types _ (hrep.home_ne_none hw hc hy), h.types y hy, hrep.ty_eq hw hc]
        · exact hrep.out hc ha hout
    refine List.ext_getElem? fun i => ?_
    rw [List.getElem?_map, List.getElem?_map]
    exact hall i
  · rw [Chart.simplify]
    dsimp only
    rw [Option.map_map]
    cases ht : b.term with
    | none =>
      rw [hs.term_eq_none_iff.1 ht]
      rfl
    | some t =>
      obtain ⟨e, entry, he, hentry, hexpr⟩ := hs.exit_of_term ht
      rw [he, Option.map_some, Option.map_some, expr?, hget (.inr ht) hentry, Option.map_some, hexpr,
        Function.comp, expr_rename]

theorem Drops.draws : f'.Draws (c.simplify s.apply) := by
  have hhome : ∀ {x p}, (c.simplify s.apply).home x = some p →
      s.apply x = x ∧ c.home x = some p := by
    intro x p hx
    simpa [Chart.simplify, Option.ite_none_right_eq_some] using hx
  exact {
    error := by rw [hd.same]; exact h.error
    sig := by rw [hd.same]; exact h.sig
    args := by rw [hd.same]; exact h.args
    size := by rw [hd.blocks, dropPhis, Array.size_mapIdx]; exact h.size
    succs := by rw [hd.succsOf, h.succs, Chart.succs_simplify]
    pruned := by rw [hd.same]; exact h.pruned
    reach := fun l => by rw [hd.reachable, h.reach, Chart.succs_simplify]
    block := fun l hl => hd.shows h hc hw hends hrep (by rwa [Chart.succs_simplify] at hl)
    types := fun x hx => by
      obtain ⟨p, hp⟩ := Option.ne_none_iff_exists'.1 hx
      obtain ⟨hfix, hp⟩ := hhome hp
      rw [hd.tyOf, Chart.simplify_ty hfix]
      exact h.types x (by rw [hp]; exact Option.some_ne_none p)
    home := fun x p hx => by
      obtain ⟨e, he, hb⟩ := h.home x p (hhome hx).2
      rw [hd.entries, he, Option.map_some]
      exact ⟨_, rfl, by split <;> exact hb⟩
    phi := fun x l hx hl => by
      rw [Chart.succs_simplify] at hl
      obtain ⟨hfix, hx⟩ := hhome hx
      obtain ⟨n, rfl, e, he, hexpr⟩ := phi?_eq_some_iff.1 (h.phi x l hx hl)
      have hn : n ∈ f'.reachableIds := by
        obtain ⟨b, hb, hs⟩ := hd.shows h hc hw hends hrep hl
        refine mem_reachableIds.2 ⟨l, b, hb, ?_, .inl ?_⟩
        · rw [hd.reachable, h.reach]
          exact hl
        · obtain ⟨k, hk, heq⟩ :=
            List.mem_map.1 (hs.phis ▸ Chart.mem_simplify_phis.2 ⟨(hc.phi l n).2 hx, hfix⟩)
          rwa [← Int.natCast_inj.1 heq]
      rw [phi?_eq, hd.entries, entryOf?, fetch?_natCast, he, Option.map_some, Int.toNat_natCast,
        if_pos hn, Option.bind_some, hexpr, Chart.simplify_incoming hfix]
      simp only [Expr.mapOperands, Expr.isPhi, Expr.branches, if_true, List.filter_map, List.map_map,
        hd.reachable]
      rfl
    loose := fun x e he hnone => by
      simp only [Chart.simplify] at he
      split at he
      · obtain ⟨v, hv, rfl⟩ := List.mem_map.1 he
        -- Only values are replaced, so this is none.
        have hv' : c.home v.ref = none := by
          by_contra hsome
          obtain ⟨p, hp⟩ := Option.ne_none_iff_exists'.1 (hrep.home_ne_none hw hc hsome)
          have hsome' : (c.simplify s.apply).home (s.apply v.ref) = some p := by
            simp [Chart.simplify, hrep.idem, hp]
          rw [hsome'] at hnone
          cases hnone
        have hfix : s.apply v.ref = v.ref := by
          by_contra hne
          obtain ⟨l, hl, -⟩ := hrep.phi _ hne
          rw [hv'] at hl
          cases hl
        rw [hfix, hd.tyOf]
        exact h.loose x v hv hv'
      · exact absurd he List.not_mem_nil }

end Dropped

/-- The function without its trivial phis draws the simplified chart. -/
theorem Draws.removeTrivialPhis (h : f.Draws c) (hc : c.Consistent) (hw : c.WellFormed)
    (hentry : c.EntryOnce) :
    f.removeTrivialPhis.2.Draws (c.simplify f.trivialPhis.apply) := by
  obtain ⟨hends, hrep⟩ := h.trivialPhis hc hw hentry
  unfold Func.removeTrivialPhis
  dsimp only
  split
  · -- Nothing was replaced.
    rename_i hzero
    have hself : ∀ x, f.trivialPhis.apply x = x := fun x => by
      have hfree := hends.free x
      rw [hzero] at hfree
      exact hends.apply_eq_self_iff.2 hfree
    rwa [Chart.simplify_eq_self hself]
  · exact (drops_removed hrep.idem f).draws h hc hw hends hrep

end Func

end Codesmith.Ssa
