import Codesmith.Proofs.Flow.Termination
import Codesmith.Proofs.Ssa.Removal

/-!
# The removal of trivial phis reaches its fixpoint

The search for trivial phis looks at phis until its queue is empty. Its bound is never met: a phi that
stays makes the queue smaller, and every other one is replaced for good. `PhiSearch.Thorough` says why
nothing is missed: a phi that is not replaced and does not wait in the queue is not trivial, and whoever
reads a value, also by way of replaced phis, is among the readers of that value. When the queue is empty
no phi that is left is trivial, so a second removal finds nothing.
-/

namespace Codesmith.Ssa

/-! ## Following references without a bound -/

namespace Replaced

variable {s : Replaced}

/-- Go to the value that took the place of a reference, if there is one. -/
def chainTurn (s : Replaced) (x : Ref) : Except Fault (Ref ⊕ Ref) :=
  match s.value? x with
  | some y => .ok (.inl y)
  | none => .ok (.inr x)

theorem follow_ends (n : Nat) (x : Ref) (h : s.value? (s.follow n x) = none) :
    Graph.LoopEnds s.chainTurn x (s.follow n x) := by
  induction n generalizing x with
  | zero => exact .stop (by rw [chainTurn, show s.value? x = none from h]; rfl)
  | succ n ih =>
    cases hy : s.value? x with
    | none =>
      rw [follow_of_none hy]
      exact .stop (by rw [chainTurn, hy])
    | some y =>
      have hfollow : s.follow (n + 1) x = s.follow n y := by rw [follow, hy]
      rw [hfollow] at h ⊢
      exact .next (by rw [chainTurn, hy]) (ih y h)

theorem Ends.chainEnds (h : s.Ends) (x : Ref) : Graph.LoopEnds s.chainTurn x (s.apply x) := by
  rw [h.apply_eq]
  exact follow_ends _ x (h.free x)

end Replaced

namespace Func

variable {f : Func} {phis : List Nat} {w : PhiSearch} {id : Nat}

/-! ## Trivial phis are found -/

section Sole

variable {ren : Ref → Ref} {bs : List PhiBranch} {v : Ref}

theorem soleValue_of_seen (h : ∀ b ∈ bs, ren b.value = id ∨ ren b.value = v) : soleValue id ren bs v = v := by
  induction bs with
  | nil => rfl
  | cons b bs ih =>
    obtain ⟨hb, hbs⟩ := List.forall_mem_cons.1 h
    rw [soleValue, if_pos hb, ih hbs]

/-- The only value that branches merge besides the phi is found. -/
theorem soleValue_eq (hv : v ≠ noRef) (hne : v ≠ id)
    (h : ∀ b ∈ bs, ren b.value = id ∨ ren b.value = v) (hex : ∃ b ∈ bs, ren b.value = v) :
    soleValue id ren bs noRef = v := by
  induction bs with
  | nil =>
    obtain ⟨b, hb, -⟩ := hex
    cases hb
  | cons b bs ih =>
    obtain ⟨hb, hbs⟩ := List.forall_mem_cons.1 h
    rw [soleValue]
    by_cases hid : ren b.value = id
    · rw [if_pos (.inl hid)]
      refine ih hbs ?_
      obtain ⟨b', hb', heq⟩ := hex
      rcases List.mem_cons.1 hb' with rfl | hb'
      · exact absurd (heq.symm.trans hid) hne
      · exact ⟨b', hb', heq⟩
    · have hbv := hb.resolve_left hid
      have hskip : ¬ (ren b.value = id ∨ ren b.value = noRef) := by
        rintro (h | h)
        · exact hid h
        · exact hv (hbv.symm.trans h)
      rw [if_neg hskip, if_neg (not_not.2 rfl), hbv, soleValue_of_seen hbs]

theorem soleValue_congr (ren' : Ref → Ref) (h : ∀ b ∈ bs, ren b.value = ren' b.value) (seen : Ref) :
    soleValue id ren bs seen = soleValue id ren' bs seen := by
  induction bs generalizing seen with
  | nil => rfl
  | cons b bs ih =>
    obtain ⟨hb, hbs⟩ := List.forall_mem_cons.1 h
    simp only [soleValue, hb, ih hbs]

theorem soleValue_map {ren' : Ref → Ref} (seen : Ref) :
    soleValue id ren' (bs.map fun b => { b with value := ren b.value }) seen =
      soleValue id (fun x => ren' (ren x)) bs seen := by
  induction bs generalizing seen with
  | nil => rfl
  | cons b bs ih => simp only [List.map_cons, soleValue, ih]

end Sole

/-- The phi merges exactly one value besides itself. -/
def Trivial (f : Func) (id : Nat) : Prop :=
  ∃ v : Ref, v ≠ id ∧ (∃ b ∈ f.branches id, b.value = v) ∧
    ∀ b ∈ f.branches id, b.value = id ∨ b.value = v

theorem not_trivial_of_soleValue (hvals : ∀ b ∈ f.branches id, b.value ≠ noRef)
    (h : soleValue id (fun x => x) (f.branches id) noRef = noRef) : ¬ f.Trivial id := by
  rintro ⟨v, hne, ⟨b, hb, rfl⟩, hall⟩
  have hv := hvals b hb
  exact hv ((soleValue_eq hv hne hall ⟨b, hb, rfl⟩).symm.trans h)

/-! ## One turn of the search -/

theorem mem_foldl_insert_iff {us : List Nat} {q : Std.TreeSet Nat} {u : Nat} :
    u ∈ us.foldl (fun q u => q.insert u) q ↔ u ∈ us ∨ u ∈ q := by
  induction us generalizing q with
  | nil => simp
  | cons y us ih =>
    rw [List.foldl_cons, ih, Std.TreeSet.mem_insert, compare_eq_iff_eq, List.mem_cons, eq_comm]
    tauto

theorem getD_modify {readers : Array (List Nat)} {k : Nat} (hk : k < readers.size) (n : Nat)
    (g : List Nat → List Nat) : (readers.modify n g).getD k [] =
      if n = k then g (readers.getD k []) else readers.getD k [] := by
  simp only [Array.getD_eq_getD_getElem?, Array.getElem?_modify, Array.getElem?_eq_getElem hk]
  split <;> rfl

/-- Looking at a phi drops it from the queue, and replaces it if it is trivial. -/
theorem inspect_cases (f : Func) (w : PhiSearch) (id : Nat) :
    f.inspect w id = { w with queue := w.queue.erase id } ∧
        (w.replaced.value? id = none → soleValue id w.replaced.apply (f.branches id) noRef = noRef) ∨
      w.replaced.value? id = none ∧ ∃ v, v ≠ noRef ∧
        soleValue id w.replaced.apply (f.branches id) noRef = v ∧
        f.inspect w id = ({ w with queue := w.queue.erase id } : PhiSearch).replace id v := by
  unfold inspect
  dsimp only
  split
  · rename_i hmem
    refine .inl ⟨rfl, fun hnone => ?_⟩
    rw [Replaced.contains, hnone] at hmem
    cases hmem
  · rename_i hnot
    have hnone : w.replaced.value? id = none := by
      rwa [Replaced.contains, Bool.not_eq_true, Option.isSome_eq_false_iff, Option.isNone_iff_eq_none] at hnot
    split
    · rename_i hsole
      exact .inl ⟨rfl, fun _ => hsole⟩
    · rename_i hsole
      exact .inr ⟨hnone, _, hsole, rfl, rfl⟩

end Func

def PhiSearch.left (w : PhiSearch) (phis : List Nat) : Finset Nat :=
  {id ∈ phis.toFinset | w.replaced.value? id = none}

def PhiSearch.waiting (w : PhiSearch) (phis : List Nat) : Finset Nat :=
  {id ∈ phis.toFinset | id ∈ w.queue}

/-- Nothing is missed: all that read a value are among its readers, and a phi that neither is replaced
nor waits is not trivial. -/
structure PhiSearch.Thorough (f : Func) (phis : List Nat) (w : PhiSearch) : Prop
    extends w.Sound f phis where
  table : w.readers.size = f.entries.size
  noted : ∀ id ∈ phis, ∀ b ∈ f.branches id, ∀ k : Nat, w.replaced.apply b.value = k →
    k < f.entries.size → id ∈ w.readers.getD k []
  settled : ∀ id ∈ phis, w.replaced.value? id = none → id ∉ w.queue →
    Func.soleValue id w.replaced.apply (f.branches id) noRef = noRef
  count : w.replaced.count + (w.left phis).card = phis.toFinset.card

namespace Func

variable {f : Func} {phis : List Nat} {w : PhiSearch} {id : Nat}
variable {readers : Array (List Nat)} {k u : Nat}

section Search

variable (hlt : ∀ id ∈ phis, id < f.entries.size)
  (hvals : ∀ id ∈ phis, ∀ b ∈ f.branches id, b.value ≠ noRef)
include hlt hvals

/-- Replacing a trivial phi keeps the search thorough: the readers of the phi are looked at again, and
for all others nothing changed. -/
theorem thorough_replace (h : w.Thorough f phis) (hid : id ∈ phis)
    (hnew : w.replaced.value? id = none) {v : Ref} (hv : v ≠ noRef)
    (hsole : soleValue id w.replaced.apply (f.branches id) noRef = v) :
    (({ w with queue := w.queue.erase id } : PhiSearch).replace id v).Thorough f phis := by
  have hsound : ({ w with queue := w.queue.erase id } : PhiSearch).Sound f phis :=
    { h.toSound with queue := fun u hu => h.queue u (Std.TreeSet.mem_erase.1 hu).2 }
  obtain ⟨-, -, hfound⟩ := soleValue_spec hsole hv
  obtain ⟨b, hb, hbv, hne⟩ := hfound rfl
  have hlt' : id < w.replaced.values.size := h.size ▸ hlt id hid
  have hvfree : w.replaced.value? v = none := hbv ▸ h.ends.value?_apply b.value
  have happly := h.ends.apply_insert hlt' hnew hvfree hne
  have hvalue := Replaced.insert_value? (v := v) hlt'
  have hgetD : ∀ k u, (u ∈ w.readers.getD k [] ∨ v = (k : Int) ∧ u ∈ w.readers.getD id []) →
      k < w.readers.size → u ∈ (w.readers.modify v.toNat
        fun us => if v < 0 then us else w.readers.getD id [] ++ us).getD k [] := by
    intro k u hu hk
    rw [getD_modify hk]
    by_cases hvk : v.toNat = k
    · rw [if_pos hvk]
      by_cases hneg : v < 0
      · rw [if_pos hneg]
        exact hu.resolve_right fun h => absurd hneg (h.1 ▸ Int.not_lt.2 (Int.natCast_nonneg k))
      · rw [if_neg hneg, List.mem_append]
        tauto
    · rw [if_neg hvk]
      exact hu.resolve_right fun h => hvk (by rw [h.1, Int.toNat_natCast])
  refine { sound_replace hsound hid (hlt id hid) (hvals id hid) hnew hv hsole with
    table := ?_, noted := ?_, settled := ?_, count := ?_ }
  · exact Array.size_modify.trans h.table
  · intro u hu b' hb' k hk hksize
    simp only [PhiSearch.replace, happly] at hk ⊢
    refine hgetD k u ?_ (h.table.symm ▸ hksize)
    split at hk
    · rename_i hbid
      exact .inr ⟨hk, h.noted u hu b' hb' id hbid (hlt id hid)⟩
    · exact .inl (h.noted u hu b' hb' k hk hksize)
  · intro u hu hfree hq
    simp only [PhiSearch.replace, hvalue, mem_foldl_insert_iff, Std.TreeSet.mem_erase, not_or] at hfree hq
    have hne' : u ≠ id := by
      rintro rfl
      rw [if_pos rfl] at hfree
      cases hfree
    rw [if_neg fun he => hne' (Int.natCast_inj.1 he)] at hfree
    have hold : u ∉ w.queue := fun hmem => hq.2 ⟨fun he => hne' (compare_eq_iff_eq.1 he).symm, hmem⟩
    have hnot : u ∉ w.readers.getD id [] := fun hmem => hq.1 (List.mem_filter.2 ⟨hmem, by simpa using hne'⟩)
    refine (soleValue_congr _ (fun b' hb' => ?_) _).trans (h.settled u hu hfree hold)
    simp only [PhiSearch.replace, happly]
    rw [if_neg fun he => hnot (h.noted u hu b' hb' id he (hlt id hid))]
  · have hleft : (({ w with queue := w.queue.erase id } : PhiSearch).replace id v).left phis =
        (w.left phis).erase id := by
      ext u
      simp only [PhiSearch.left, PhiSearch.replace, hvalue, Finset.mem_filter, Finset.mem_erase,
        Int.natCast_inj]
      by_cases hu : u = id <;> simp [hu]
    have hmem : id ∈ w.left phis := Finset.mem_filter.2 ⟨List.mem_toFinset.2 hid, hnew⟩
    have hcard := Finset.card_erase_add_one hmem
    have hcount := h.count
    rw [hleft]
    show w.replaced.count + 1 + ((w.left phis).erase id).card = _
    omega

theorem thorough_inspect (h : w.Thorough f phis) (hid : id ∈ phis) : (f.inspect w id).Thorough f phis := by
  rcases inspect_cases f w id with ⟨heq, hsole⟩ | ⟨hnew, v, hv, hsole, heq⟩
  · rw [heq]
    exact { h with
      queue := fun u hu => h.queue u (Std.TreeSet.mem_erase.1 hu).2
      settled := fun u hu hfree hq => by
        by_cases hui : u = id
        · exact hui ▸ hsole (hui ▸ hfree)
        · refine h.settled u hu hfree fun hmem => hq (Std.TreeSet.mem_erase.2 ⟨fun he => ?_, hmem⟩)
          exact hui (compare_eq_iff_eq.1 he).symm }
  · rw [heq]
    exact thorough_replace hlt hvals h hid hnew hv hsole

omit hlt hvals in
/-- Looking at a phi of the queue makes the search come closer to its end. -/
theorem measure_inspect (h : (f.inspect w id).Thorough f phis) (h0 : w.Thorough f phis) (hid : id ∈ w.queue) :
    ((f.inspect w id).left phis).card * (phis.length + 1) + ((f.inspect w id).waiting phis).card <
      (w.left phis).card * (phis.length + 1) + (w.waiting phis).card := by
  have hmem : id ∈ phis.toFinset := List.mem_toFinset.2 (h0.queue id hid)
  rcases inspect_cases f w id with ⟨heq, -⟩ | ⟨-, v, -, -, heq⟩
  · have hleft : (f.inspect w id).left phis = w.left phis := by rw [heq]; rfl
    have hsub : (f.inspect w id).waiting phis ⊂ w.waiting phis := by
      refine Finset.ssubset_iff_subset_ne.2 ⟨fun u hu => ?_, fun he => ?_⟩
      · rw [heq] at hu
        obtain ⟨hu, hq⟩ := Finset.mem_filter.1 hu
        exact Finset.mem_filter.2 ⟨hu, (Std.TreeSet.mem_erase.1 hq).2⟩
      · have hin : id ∈ w.waiting phis := Finset.mem_filter.2 ⟨hmem, hid⟩
        rw [← he, heq] at hin
        exact (Std.TreeSet.mem_erase.1 (Finset.mem_filter.1 hin).2).1 (compare_eq_iff_eq.2 rfl)
    have := Finset.card_lt_card hsub
    rw [hleft]
    omega
  · have hcount : (f.inspect w id).replaced.count = w.replaced.count + 1 := by rw [heq]; rfl
    have hwait : ((f.inspect w id).waiting phis).card ≤ phis.length :=
      (Finset.card_filter_le _ _).trans phis.toFinset_card_le
    have hone : ((f.inspect w id).left phis).card + 1 = (w.left phis).card := by
      have := h.count
      have := h0.count
      omega
    rw [← hone, Nat.add_mul]
    omega

end Search

/-- Look at the least phi of the queue, if there is one. -/
def phiTurn (f : Func) (w : PhiSearch) : Except Fault (PhiSearch ⊕ Replaced) :=
  match w.queue.min? with
  | none => .ok (.inr w.replaced)
  | some id => .ok (.inl (f.inspect w id))

section Search

variable (hlt : ∀ id ∈ phis, id < f.entries.size)
  (hvals : ∀ id ∈ phis, ∀ b ∈ f.branches id, b.value ≠ noRef)
include hlt hvals

/-- A turn keeps the search thorough and looks at a phi of the queue. -/
theorem thorough_turn {w' : PhiSearch} (h : w.Thorough f phis) (hturn : f.phiTurn w = .ok (.inl w')) :
    w'.Thorough f phis := by
  rw [phiTurn] at hturn
  split at hturn
  · cases hturn
  · rename_i id hmin
    cases hturn
    exact thorough_inspect hlt hvals h (h.queue id (Std.TreeSet.min?_eq_some_iff_mem_and_forall.1 hmin).1)

/-- The search ends when its queue is empty, before its bound is met. -/
theorem search_ends (fuel : Nat) (h : w.Thorough f phis)
    (hfuel : (w.left phis).card * (phis.length + 1) + (w.waiting phis).card < fuel) :
    Graph.LoopEnds f.phiTurn w (f.replaceTrivial fuel w) ∧ ∃ w' : PhiSearch,
      f.replaceTrivial fuel w = w'.replaced ∧ w'.Thorough f phis ∧ ∀ id, id ∉ w'.queue := by
  induction fuel generalizing w with
  | zero => exact absurd hfuel (Nat.not_lt_zero _)
  | succ fuel ih =>
    rw [replaceTrivial]
    cases hmin : w.queue.min? with
    | none =>
      refine ⟨.stop (by rw [phiTurn, hmin]), w, rfl, h, fun id hid => ?_⟩
      rw [Std.TreeSet.min?_eq_none_iff, Std.TreeSet.isEmpty_iff_forall_not_mem] at hmin
      exact hmin id hid
    | some id =>
      have hid := (Std.TreeSet.min?_eq_some_iff_mem_and_forall.1 hmin).1
      have hnext := thorough_inspect hlt hvals h (h.queue id hid)
      have hless := measure_inspect hnext h hid
      obtain ⟨hends, hw'⟩ := ih hnext (by omega)
      exact ⟨.next (by rw [phiTurn, hmin]) hends, hw'⟩

end Search

/-! ## The start of the search -/

theorem mem_noteReads_iff (hk : k < readers.size) : u ∈ (f.noteReads readers id).getD k [] ↔
      u ∈ readers.getD k [] ∨ u = id ∧ ∃ b ∈ f.branches id, b.value = k := by
  unfold noteReads
  induction f.branches id generalizing readers with
  | nil => simp
  | cons b bs ih =>
    rw [List.foldl_cons]
    by_cases hneg : b.value < 0
    · have hne : b.value ≠ k := fun he => absurd hneg (he ▸ Int.not_lt.2 (Int.natCast_nonneg k))
      rw [if_pos hneg, ih hk, List.exists_mem_cons_iff]
      tauto
    obtain ⟨n, hn⟩ := Int.eq_ofNat_of_zero_le (Int.not_lt.1 hneg)
    rw [if_neg hneg, ih (Array.size_modify.symm ▸ hk), hn, Int.toNat_natCast, getD_modify hk,
      List.exists_mem_cons_iff, hn, Int.natCast_inj]
    by_cases hnk : n = k
    · rw [if_pos hnk, List.mem_cons]
      tauto
    · rw [if_neg hnk]
      tauto

theorem size_noteReads (readers : Array (List Nat)) (id : Nat) :
    (f.noteReads readers id).size = readers.size := by
  unfold noteReads
  induction f.branches id generalizing readers with
  | nil => rfl
  | cons b bs ih =>
    rw [List.foldl_cons, ih]
    split
    · rfl
    · exact Array.size_modify

theorem mem_foldl_noteReads {ids : List Nat} (hk : k < readers.size) :
    u ∈ (ids.foldl f.noteReads readers).getD k [] ↔
      u ∈ readers.getD k [] ∨ u ∈ ids ∧ ∃ b ∈ f.branches u, b.value = k := by
  induction ids generalizing readers with
  | nil => simp
  | cons id ids ih =>
    rw [List.foldl_cons, ih (by rwa [size_noteReads]), mem_noteReads_iff hk, List.mem_cons]
    constructor
    · rintro ((h | ⟨rfl, h⟩) | ⟨h, h'⟩)
      · exact .inl h
      · exact .inr ⟨.inl rfl, h⟩
      · exact .inr ⟨.inr h, h'⟩
    · rintro (h | ⟨rfl | h, h'⟩)
      · exact .inl (.inl h)
      · exact .inl (.inr ⟨rfl, h'⟩)
      · exact .inr ⟨h, h'⟩

theorem empty_value? (n : Nat) (x : Ref) : (Replaced.empty n).value? x = none := by
  have hfree := (Replaced.ends_empty n).free x
  rwa [show (Replaced.empty n).count = 0 from rfl] at hfree

theorem empty_apply (n : Nat) (x : Ref) : (Replaced.empty n).apply x = x :=
  (Replaced.ends_empty n).apply_eq_self_iff.2 (empty_value? n x)

theorem thorough_start (f : Func) (phis : List Nat) : (f.startSearch phis).Thorough f phis := by
  have hsize : ∀ (ids : List Nat) (readers : Array (List Nat)),
      (ids.foldl f.noteReads readers).size = readers.size := by
    intro ids
    induction ids with
    | nil => exact fun _ => rfl
    | cons id ids ih => exact fun readers => (ih _).trans (size_noteReads readers id)
  refine { sound_start with table := ?_, noted := ?_, settled := ?_, count := ?_ }
  · exact (hsize _ _).trans Array.size_replicate
  · intro id hid b hb k hk hlt
    simp only [startSearch, empty_apply] at hk ⊢
    exact (mem_foldl_noteReads (by simpa using hlt)).2 (.inr ⟨hid, b, hb, hk⟩)
  · intro id hid _ hq
    exact absurd (mem_foldl_insert_iff.2 (.inl hid)) hq
  · have hleft : (f.startSearch phis).left phis = phis.toFinset :=
      Finset.filter_true_of_mem fun id _ => empty_value? _ _
    rw [hleft]
    exact Nat.zero_add _

/-- The bound of the search is more than enough. -/
theorem trivialPhis_ends (f : Func) (hlt : ∀ id ∈ f.phisOf fun l => f.reachable l, id < f.entries.size)
    (hvals : ∀ id ∈ f.phisOf fun l => f.reachable l, ∀ b ∈ f.branches id, b.value ≠ noRef) :
    Graph.LoopEnds f.phiTurn (f.startSearch (f.phisOf fun l => f.reachable l)) f.trivialPhis ∧
      ∃ w : PhiSearch, f.trivialPhis = w.replaced ∧
        w.Thorough f (f.phisOf fun l => f.reachable l) ∧ ∀ id, id ∉ w.queue := by
  set phis := f.phisOf fun l => f.reachable l
  refine search_ends hlt hvals _ (thorough_start f phis) ?_
  have hleft : ((f.startSearch phis).left phis).card ≤ phis.length :=
    (Finset.card_filter_le _ _).trans phis.toFinset_card_le
  have hwait : ((f.startSearch phis).waiting phis).card ≤ phis.length :=
    (Finset.card_filter_le _ _).trans phis.toFinset_card_le
  nlinarith

/-! ## After the removal -/

theorem nodup_phisOf (ht : f.Tabled) (p : Label → Bool) : (f.phisOf p).Nodup := by
  have hblock : ∀ {b : Block} {l : Label}, (b, l) ∈ f.blocks.toList.zipIdx → f.blocks[l]? = some b := by
    intro b l h
    simpa using List.mem_zipIdx_iff_getElem?.1 h
  refine List.nodup_flatMap.2 ⟨fun x hx => ?_, ?_⟩
  · split
    · exact ht.nodup x.2 x.1 (hblock hx)
    · exact List.nodup_nil
  · -- A phi belongs to one block only.
    have hpairs : f.blocks.toList.zipIdx.Pairwise fun x y => x.2 ≠ y.2 := by
      rw [← List.pairwise_map (f := Prod.snd) (R := (· ≠ ·)), List.zipIdx_map_snd]
      exact List.nodup_range'
    refine hpairs.imp_of_mem fun {x y} hx hy hne => List.disjoint_left.2 fun id hid hid' => hne ?_
    dsimp only at hid hid'
    split at hid
    · split at hid'
      · obtain ⟨e, he, hl, -⟩ := ht.phis x.2 x.1 id (hblock hx) hid
        obtain ⟨e', he', hl', -⟩ := ht.phis y.2 y.1 id (hblock hy) hid'
        cases he.symm.trans he'
        exact hl.symm.trans hl'
      · cases hid'
    · cases hid

theorem mapOperands_self {σ : Ref → Ref} (hσ : ∀ x, σ x = x) (x : Expr) : x.mapOperands σ = x := by
  cases x with
  | ret y => cases y <;> simp [Expr.mapOperands, hσ]
  | _ => simp [Expr.mapOperands, hσ]

/-- The function after the removal, also when nothing was replaced. -/
theorem removeTrivialPhis_drops (hends : f.trivialPhis.Ends) : f.removeTrivialPhis.1 = f.trivialPhis.count ∧
      f.Drops f.trivialPhis f.removeTrivialPhis.2 := by
  unfold removeTrivialPhis
  dsimp only
  split
  · rename_i hzero
    have hfree : ∀ x, f.trivialPhis.value? x = none := fun x => by
      have := hends.free x
      rwa [hzero] at this
    have happly : ∀ x, f.trivialPhis.apply x = x := fun x => hends.apply_eq_self_iff.2 (hfree x)
    refine ⟨hzero.symm, rfl, Array.ext_getElem? fun l => ?_, fun y => ?_⟩
    · rw [dropPhis_getElem?]
      cases f.blocks[l]? with
      | none => rfl
      | some b => simp [Replaced.contains, hfree]
    · cases f.entryOf? y with
      | none => rfl
      | some e => simp [mapOperands_self happly]
  · exact ⟨rfl, drops_removed (fun x => hends.apply_eq_self_iff.2 (hends.value?_apply x)) f⟩

section Dropped

variable {s : Replaced} {f' : Func} (hd : f.Drops s f')
include hd

theorem Drops.mem_phisOf : id ∈ f'.phisOf (fun l => f'.reachable l) ↔
    id ∈ f.phisOf (fun l => f.reachable l) ∧ s.value? id = none := by
  have hcontains : (!s.contains id) = true ↔ s.value? id = none := by
    rw [Replaced.contains]
    cases s.value? id <;> simp
  simp only [Func.mem_phisOf, hd.blocks, dropPhis_getElem?, hd.reachable]
  constructor
  · rintro ⟨l, b, hb, hl, hid⟩
    obtain ⟨b0, hb0, rfl⟩ := Option.map_eq_some_iff.1 hb
    rw [if_pos hl] at hid
    obtain ⟨hid, hs⟩ := List.mem_filter.1 hid
    exact ⟨⟨l, b0, hb0, hl, hid⟩, hcontains.1 hs⟩
  · rintro ⟨⟨l, b, hb, hl, hid⟩, hs⟩
    refine ⟨l, { b with phis := b.phis.filter fun id => !s.contains id }, ?_, hl, ?_⟩
    · rw [hb, Option.map_some, if_pos hl]
    · exact List.mem_filter.2 ⟨hid, hcontains.2 hs⟩

/-- The phis that are left merge what stands for the values they merged before. -/
theorem Drops.branches_eq (hid : id ∈ f'.phisOf fun l => f'.reachable l) :
    f'.branches id = (f.branches id).map fun b => { b with value := s.apply b.value } := by
  obtain ⟨l, b, hb, hl, hmem⟩ := Func.mem_phisOf.1 hid
  have hin : id ∈ f'.reachableIds := mem_reachableIds.2 ⟨l, b, hb, hl, .inl hmem⟩
  rw [Func.branches, Func.branches, phi?_eq, phi?_eq, hd.entries, Int.toNat_natCast]
  cases f.entryOf? id with
  | none => rfl
  | some e =>
    simp only [if_pos hin, Option.map_some, Option.bind_some]
    cases e.expr with
    | ret y => cases y <;> rfl
    | _ => rfl

/-- What is left in reached blocks refers to nothing that was replaced. -/
theorem Drops.operands (hends : s.Ends) (hid : id ∈ f'.reachableIds) {e : Entry}
    (he : f'.entries[id]? = some e) {y : Ref} (hy : y ∈ e.expr.operands) : s.value? y = none := by
  have hget := hd.entries id
  rw [Func.entryOf?, fetch?_natCast, he, Int.toNat_natCast] at hget
  obtain ⟨e0, -, heq⟩ := Option.map_eq_some_iff.1 hget.symm
  rw [if_pos hid] at heq
  rw [← heq, operands_mapOperands] at hy
  obtain ⟨z, -, rfl⟩ := List.mem_map.1 hy
  exact hends.value?_apply z

end Dropped

/-- A search that finds no trivial phi replaces nothing. -/
theorem replaceTrivial_none (hsole : ∀ id ∈ phis, soleValue id (fun x => x) (f.branches id) noRef = noRef)
    {n : Nat} (fuel : Nat) (hw : w.replaced = .empty n) (hq : ∀ id ∈ w.queue, id ∈ phis) :
    f.replaceTrivial fuel w = .empty n := by
  induction fuel generalizing w with
  | zero => exact hw
  | succ fuel ih =>
    rw [replaceTrivial]
    cases hmin : w.queue.min? with
    | none => exact hw
    | some id =>
      have hid := (Std.TreeSet.min?_eq_some_iff_mem_and_forall.1 hmin).1
      rcases inspect_cases f w id with ⟨heq, -⟩ | ⟨-, v, hv, hfound, -⟩
      · exact ih (by rw [heq]; exact hw) fun u hu => by
          rw [heq] at hu
          exact hq u (Std.TreeSet.mem_erase.1 hu).2
      · rw [hw, soleValue_congr (fun x => x) fun b _ => empty_apply n b.value, hsole id (hq id hid)] at hfound
        exact absurd hfound.symm hv

/-- The phis of reached blocks that the removal drops. -/
def dropped (f : Func) : List Nat :=
  (f.phisOf fun l => f.reachable l).filter fun id =>
    !(f.removeTrivialPhis.2.phisOf fun l => f.removeTrivialPhis.2.reachable l).contains id

/-- A state that the search for trivial phis comes to. -/
def Searched (f : Func) (w : PhiSearch) : Prop :=
  Relation.ReflTransGen (fun w w' => f.phiTurn w = .ok (.inl w'))
    (f.startSearch (f.phisOf fun l => f.reachable l)) w

/-- The removal of trivial phis reaches its fixpoint, for every pruned function whose tables are in order,
as they are in every function that calls have built. The loop of its search ends, and so does every
chain of replacements that the search follows; its bounds are never met. Afterwards no phi of a reached
block is trivial, the count is that of the dropped phis, nothing in a reached block refers to one of
them, and a second removal drops nothing and leaves the function as it is. -/
theorem removal_reaches_fixpoint {f₀ f : Func} (ht : f₀.Tabled) (hp : f₀.prune = .ok f)
    (hvals : ∀ id ∈ f.phisOf fun l => f.reachable l, ∀ b ∈ f.branches id, b.value ≠ noRef) :
    (Graph.LoopEnds f.phiTurn (f.startSearch (f.phisOf fun l => f.reachable l)) f.trivialPhis ∧
      (∀ w, f.Searched w → ∀ x, Graph.LoopEnds w.replaced.chainTurn x (w.replaced.apply x)) ∧
      ∀ x, Graph.LoopEnds f.trivialPhis.chainTurn x (f.trivialPhis.apply x)) ∧
    (∀ id ∈ f.removeTrivialPhis.2.phisOf fun l => f.removeTrivialPhis.2.reachable l,
      ¬ f.removeTrivialPhis.2.Trivial id) ∧
    f.removeTrivialPhis.1 = f.dropped.length ∧
    (∀ id ∈ f.removeTrivialPhis.2.reachableIds, ∀ e, f.removeTrivialPhis.2.entries[id]? = some e →
      ∀ y ∈ e.expr.operands, ∀ d ∈ f.dropped, y ≠ d) ∧
    f.removeTrivialPhis.2.removeTrivialPhis = (0, f.removeTrivialPhis.2) := by
  have ht : f.Tabled := ht.prune hp
  have hlt : ∀ id ∈ f.phisOf fun l => f.reachable l, id < f.entries.size := by
    intro id hid
    obtain ⟨l, b, hb, -, hmem⟩ := mem_phisOf.1 hid
    obtain ⟨e, he, -⟩ := ht.phis l b id hb hmem
    exact (Array.getElem?_eq_some_iff.1 he).1
  obtain ⟨hloop, w, hw, hthorough, hempty⟩ := trivialPhis_ends f hlt hvals
  have hends : f.trivialPhis.Ends := hw ▸ hthorough.ends
  obtain ⟨hcount, hd⟩ := removeTrivialPhis_drops hends
  have hsearched : ∀ w, f.Searched w → w.Thorough f (f.phisOf fun l => f.reachable l) := by
    intro w hw
    induction hw with
    | refl => exact thorough_start f _
    | tail _ hturn ih => exact thorough_turn hlt hvals ih hturn
  have hdropped : ∀ id, id ∈ f.dropped ↔
      id ∈ f.phisOf (fun l => f.reachable l) ∧ f.trivialPhis.value? id ≠ none := by
    intro id
    rw [dropped, List.mem_filter, Bool.not_eq_true', ← Bool.not_eq_true, List.contains_iff_mem, hd.mem_phisOf]
    tauto
  have hsole : ∀ id ∈ f.removeTrivialPhis.2.phisOf fun l => f.removeTrivialPhis.2.reachable l,
      soleValue id (fun x => x) (f.removeTrivialPhis.2.branches id) noRef = noRef := by
    intro id hid
    obtain ⟨hmem, hfree⟩ := hd.mem_phisOf.1 hid
    rw [hd.branches_eq hid, soleValue_map, hw]
    exact hthorough.settled id hmem (hw ▸ hfree) (hempty id)
  refine ⟨⟨hloop, fun w hw x => (hsearched w hw).ends.chainEnds x, hends.chainEnds⟩, fun id hid => ?_,
    ?_, fun id hid e he y hy d hdrop => ?_, ?_⟩
  · refine not_trivial_of_soleValue (fun b hb => ?_) (hsole id hid)
    rw [hd.branches_eq hid] at hb
    obtain ⟨b0, hb0, rfl⟩ := List.mem_map.1 hb
    intro hno
    exact hvals id (hd.mem_phisOf.1 hid).1 b0 hb0 (hthorough.real _ (hw ▸ hno))
  · have hnd : f.dropped.Nodup := (nodup_phisOf ht _).filter _
    have hcard : f.dropped.length = ((f.phisOf fun l => f.reachable l).toFinset.filter
        fun id : Nat => ¬ f.trivialPhis.value? id = none).card := by
      rw [← List.toFinset_card_of_nodup hnd]
      refine congrArg Finset.card (Finset.ext fun id => ?_)
      rw [List.mem_toFinset, Finset.mem_filter, List.mem_toFinset]
      exact hdropped id
    have hsplit := Finset.card_filter_add_card_filter_not
      (s := (f.phisOf fun l => f.reachable l).toFinset) fun id : Nat => f.trivialPhis.value? id = none
    have hall := hthorough.count
    rw [PhiSearch.left, ← hw] at hall
    omega
  · rintro rfl
    exact ((hdropped d).1 hdrop).2 (hd.operands hends hid he hy)
  · have hnone : f.removeTrivialPhis.2.trivialPhis = .empty f.removeTrivialPhis.2.entries.size :=
      replaceTrivial_none hsole _ rfl fun id hid => by simpa using mem_foldl_insert_iff.1 hid
    rw [removeTrivialPhis, if_pos (by rw [hnone]; rfl)]

/-- A loop whose phis merge the argument, by way of each other. The first is trivial at once, and makes
the second trivial. -/
def chainedLoop : Func :=
  let f := create "chained" ⟨[.i64, .bool], .i64⟩
  let f := (f.newBlock "loop").2
  let f := (f.newBlock "exit").2
  let f := (f.add 0 (.jump 1) .void none).2
  let f := (f.add 1 (.phi [⟨0, 0⟩, ⟨1, 3⟩]) .i64 none).2
  let f := (f.add 1 (.phi [⟨0, 0⟩, ⟨1, 3⟩]) .i64 none).2
  let f := (f.add 1 (.branch 1 2 1) .void none).2
  (f.add 2 (.ret (some 4)) .void none).2

theorem made_chainedLoop : chainedLoop.Made :=
  .add _ _ _ _ <| .add _ _ _ _ <| .add _ _ _ _ <| .add _ _ _ _ <| .add _ _ _ _ <| .newBlock _ <|
    .newBlock _ <| .create _ _

theorem removal_reaches_fixpoint_chainedLoop : ∃ f, chainedLoop.prune = .ok f ∧
    f.removeTrivialPhis.1 = 2 ∧ f.dropped = [3, 4] ∧
    (∀ id ∈ f.removeTrivialPhis.2.phisOf fun l => f.removeTrivialPhis.2.reachable l,
      ¬ f.removeTrivialPhis.2.Trivial id) ∧
    f.removeTrivialPhis.2.removeTrivialPhis = (0, f.removeTrivialPhis.2) := by
  obtain ⟨f, hp, hone, hdropped, hvals⟩ : ∃ f, chainedLoop.prune = .ok f ∧
      f.removeTrivialPhis.1 = 2 ∧ f.dropped = [3, 4] ∧
      ∀ id ∈ f.phisOf fun l => f.reachable l, ∀ b ∈ f.branches id, b.value ≠ noRef :=
    ⟨_, rfl, by cbv, by cbv, by decide⟩
  obtain ⟨-, hleft, -, -, hagain⟩ := removal_reaches_fixpoint made_chainedLoop.tabled hp hvals
  exact ⟨f, hp, hone, hdropped, hleft, hagain⟩

end Func

end Codesmith.Ssa
