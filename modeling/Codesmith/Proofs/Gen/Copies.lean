import Codesmith.Gen.ParallelCopy
import Codesmith.Proofs.Machine.Assemble

/-!
# Copies that happen at the same time

The instructions for the copies on an edge are copies in a certain order. Made one after another, they
leave every target with the word that its source held before any of them, and touch no other register
below the free ones.
-/

namespace Codesmith

variable {ms : List (Reg × Reg)} {x : Reg}

/-! ## Copies one after another -/

/-- The values after copies are made in order. -/
def moveAll (ms : List (Reg × Reg)) (v : Reg → Word) : Reg → Word :=
  ms.foldl (fun v m => Function.update v m.1 (v m.2)) v

theorem moveAll_cons (m : Reg × Reg) (ms : List (Reg × Reg)) (v : Reg → Word) :
    moveAll (m :: ms) v = moveAll ms (Function.update v m.1 (v m.2)) := rfl

theorem moveAll_append (ms ns : List (Reg × Reg)) (v : Reg → Word) :
    moveAll (ms ++ ns) v = moveAll ns (moveAll ms v) :=
  List.foldl_append

theorem moveAll_of_notMem (hx : x ∉ ms.map Prod.fst) (v : Reg → Word) : moveAll ms v x = v x := by
  induction ms generalizing v with
  | nil => rfl
  | cons m ms ih =>
    rw [List.map_cons, List.mem_cons, not_or] at hx
    rw [moveAll_cons, ih hx.2, Function.update_of_ne hx.1]

section

variable (hnd : (ms.map Prod.fst).Nodup) (hread : ∀ m ∈ ms, ∀ n ∈ ms, m.1 ≠ n.2)
include hnd hread

/-- Where no target is read, the order of copies does not matter. -/
theorem moveAll_of_mem (v : Reg → Word) {m : Reg × Reg} (hm : m ∈ ms) : moveAll ms v m.1 = v m.2 := by
  induction ms generalizing v with
  | nil => exact absurd hm List.not_mem_nil
  | cons n ms ih =>
    rw [List.map_cons, List.nodup_cons] at hnd
    rw [moveAll_cons]
    rcases List.mem_cons.1 hm with rfl | hm
    · rw [moveAll_of_notMem hnd.1, Function.update_self]
    · rw [ih hnd.2 (fun a ha b hb => hread a (List.mem_cons_of_mem _ ha) b (List.mem_cons_of_mem _ hb)) _ hm]
      exact Function.update_of_ne (hread n List.mem_cons_self m (List.mem_cons_of_mem _ hm)).symm _ _

/-- Some of these copies leave a register alone or give it the word of its source. -/
theorem moveAll_take (v : Reg → Word) (i : Nat) (x : Reg) :
    moveAll (ms.take i) v x = v x ∨ ∃ y, (x, y) ∈ ms ∧ moveAll (ms.take i) v x = v y := by
  by_cases hx : x ∈ (ms.take i).map Prod.fst
  · obtain ⟨⟨x, y⟩, hm, rfl⟩ := List.mem_map.1 hx
    refine .inr ⟨y, List.mem_of_mem_take hm, ?_⟩
    refine moveAll_of_mem (hnd.sublist ((List.take_sublist i ms).map _)) (fun m hm n hn => ?_) v hm
    exact hread m (List.mem_of_mem_take hm) n (List.mem_of_mem_take hn)
  · exact .inl (moveAll_of_notMem hx v)

end

/-- Copies to registers from `temp` on leave those below alone. -/
theorem moveAll_of_lt {temp : Reg} (h : ∀ m ∈ ms, temp ≤ m.1) (hx : x < temp) (v : Reg → Word) :
    moveAll ms v x = v x := by
  refine moveAll_of_notMem (fun hmem => ?_) v
  obtain ⟨m, hm, rfl⟩ := List.mem_map.1 hmem
  exact absurd hx (Int.not_lt.2 (h m hm))

namespace Gen

variable {temp x : Reg} {m : Reg × Reg} {moves ms : List (Reg × Reg)} {W : Set Reg}

/-! ## The plan -/

/-- Copies of all sources to registers from `temp` on. -/
def staged (temp : Reg) (sources : List Reg) (next : Reg → Reg := (· + 1)) : List (Reg × Reg) :=
  match sources with
  | [] => []
  | source :: sources => (temp, source) :: staged (next temp) sources next

/-- The copies that are made, in order. -/
def plan (moves : List (Reg × Reg)) (temp : Reg) (next : Reg → Reg := (· + 1)) : List (Reg × Reg) :=
  if clobbers moves then
    staged temp (moves.map Prod.snd) next ++ (staged temp (moves.map Prod.fst) next).map Prod.swap
  else moves

section

variable (next : Reg → Reg)

theorem stage_eq (temp : Reg) (sources : List Reg) :
    stage next temp sources = (staged temp sources next).map fun m => copyInstr m.1 m.2 := by
  induction sources generalizing temp with
  | nil => rfl
  | cons s ss ih => rw [stage, staged, List.map_cons, ih]

theorem unstage_eq (temp : Reg) (targets : List Reg) :
    unstage next temp targets = ((staged temp targets next).map Prod.swap).map fun m => copyInstr m.1 m.2 := by
  induction targets generalizing temp with
  | nil => rfl
  | cons t ts ih => rw [unstage, staged, List.map_cons, List.map_cons, ih]; rfl

theorem parallelCopy_eq (moves : List (Reg × Reg)) (temp : Reg) :
    parallelCopy moves temp next = (plan moves temp next).map fun m => copyInstr m.1 m.2 := by
  unfold parallelCopy plan
  split
  · rw [List.map_append, stage_eq, unstage_eq]
  · rfl

end

theorem nextReg_of_nonneg (h : 0 ≤ Machine.nextReg x) : Machine.nextReg x = x + 1 := by
  refine if_neg fun hx => ?_
  rw [Machine.nextReg, if_pos hx] at h
  exact absurd h (by decide)

/-- The free registers follow each other unless one of them is negative. -/
theorem staged_nextReg {sources : List Reg} (h : ∀ m ∈ staged temp sources Machine.nextReg, 0 ≤ m.1) :
    staged temp sources Machine.nextReg = staged temp sources := by
  induction sources generalizing temp with
  | nil => rfl
  | cons s ss ih =>
    rw [staged, ih fun m hm => h m (List.mem_cons_of_mem _ hm), staged]
    cases ss with
    | nil => rfl
    | cons s' ss => rw [nextReg_of_nonneg (h _ (List.mem_cons_of_mem _ List.mem_cons_self))]

theorem plan_nextReg (h : ∀ m ∈ plan moves temp Machine.nextReg, 0 ≤ m.1 ∧ 0 ≤ m.2) :
    plan moves temp Machine.nextReg = plan moves temp := by
  unfold plan at h ⊢
  split
  · rename_i hclob
    rw [if_pos hclob] at h
    rw [staged_nextReg fun m hm => (h m (List.mem_append_left _ hm)).1,
      staged_nextReg fun m hm => (h _ (List.mem_append_right _ (List.mem_map_of_mem hm))).2]
  · rfl

theorem mem_staged {sources : List Reg} (h : m ∈ staged temp sources) : temp ≤ m.1 ∧ m.2 ∈ sources := by
  induction sources generalizing temp with
  | nil => exact absurd h List.not_mem_nil
  | cons s ss ih =>
    rcases List.mem_cons.1 h with rfl | h
    · exact ⟨le_rfl, List.mem_cons_self⟩
    · obtain ⟨hle, hm⟩ := ih h
      exact ⟨(Int.le_add_one le_rfl).trans hle, List.mem_cons_of_mem _ hm⟩

theorem staged_snd (temp : Reg) (sources : List Reg) : (staged temp sources).map Prod.snd = sources := by
  induction sources generalizing temp with
  | nil => rfl
  | cons s ss ih => rw [staged, List.map_cons, ih]

theorem staged_nodup (temp : Reg) (sources : List Reg) : ((staged temp sources).map Prod.fst).Nodup := by
  induction sources generalizing temp with
  | nil => exact List.nodup_nil
  | cons s ss ih =>
    rw [staged, List.map_cons, List.nodup_cons]
    refine ⟨fun h => ?_, ih (temp + 1)⟩
    obtain ⟨m, hm, heq⟩ := List.mem_map.1 h
    have hle := (mem_staged hm).1
    rw [heq] at hle
    exact absurd (Int.lt_add_one_iff.2 le_rfl) (Int.not_lt.2 hle)

/-- Staging both ends of copies uses the same free register for both ends of each. -/
theorem staged_pairs (temp : Reg) (hm : m ∈ moves) :
    ∃ k, temp ≤ k ∧ (k, m.2) ∈ staged temp (moves.map Prod.snd) ∧
      (k, m.1) ∈ staged temp (moves.map Prod.fst) := by
  induction moves generalizing temp with
  | nil => exact absurd hm List.not_mem_nil
  | cons n ns ih =>
    rcases List.mem_cons.1 hm with rfl | hm
    · exact ⟨temp, le_rfl, List.mem_cons_self, List.mem_cons_self⟩
    · obtain ⟨k, hk, h1, h2⟩ := ih (temp + 1) hm
      exact ⟨k, (Int.le_add_one le_rfl).trans hk, List.mem_cons_of_mem _ h1, List.mem_cons_of_mem _ h2⟩

theorem exists_staged_pair {k : Reg} (h : (k, x) ∈ staged temp (moves.map Prod.fst)) :
    ∃ y, (x, y) ∈ moves ∧ (k, y) ∈ staged temp (moves.map Prod.snd) := by
  induction moves generalizing temp with
  | nil => exact absurd h List.not_mem_nil
  | cons n ns ih =>
    rcases List.mem_cons.1 h with he | h
    · obtain ⟨rfl, rfl⟩ := Prod.mk.inj he
      exact ⟨n.2, List.mem_cons_self, List.mem_cons_self⟩
    · obtain ⟨y, hy, hk⟩ := ih h
      exact ⟨y, List.mem_cons_of_mem _ hy, List.mem_cons_of_mem _ hk⟩

/-- The free registers are no sources of the copies to them. -/
theorem moveAll_staged (hlt : ∀ m ∈ moves, m.2 < temp) (v : Reg → Word)
    (hm : m ∈ staged temp (moves.map Prod.snd)) :
    moveAll (staged temp (moves.map Prod.snd)) v m.1 = v m.2 := by
  refine moveAll_of_mem (staged_nodup _ _) (fun a ha b hb heq => ?_) v hm
  obtain ⟨n, hn, hbn⟩ := List.mem_map.1 (mem_staged hb).2
  have := (mem_staged ha).1
  rw [heq, ← hbn] at this
  exact absurd (hlt n hn) (Int.not_lt.2 this)

theorem unstaged_fst (moves : List (Reg × Reg)) (temp : Reg) :
    ((staged temp (moves.map Prod.fst)).map Prod.swap).map Prod.fst = moves.map Prod.fst := by
  rw [List.map_map, show Prod.fst ∘ Prod.swap = @Prod.snd Reg Reg from rfl, staged_snd]

/-- The free registers are no targets of the copies from them. -/
theorem unstaged_ne (hlt : ∀ m ∈ moves, m.1 < temp) : ∀ m ∈ (staged temp (moves.map Prod.fst)).map Prod.swap,
      ∀ n ∈ (staged temp (moves.map Prod.fst)).map Prod.swap, m.1 ≠ n.2 := by
  intro a ha b hb heq
  obtain ⟨a', ha', rfl⟩ := List.mem_map.1 ha
  obtain ⟨b', hb', rfl⟩ := List.mem_map.1 hb
  obtain ⟨n, hn, han⟩ := List.mem_map.1 (mem_staged ha').2
  have hle := (mem_staged hb').1
  change a'.2 = b'.1 at heq
  rw [← heq, ← han] at hle
  exact absurd (hlt n hn) (Int.not_lt.2 hle)

theorem ne_of_not_clobbers (h : ¬ clobbers moves = true) : ∀ m ∈ moves, ∀ n ∈ moves, m.1 ≠ n.2 := by
  intro m hm n hn heq
  exact h (List.any_eq_true.2 ⟨m, hm, List.any_eq_true.2 ⟨n, hn, by simpa using heq⟩⟩)

section

variable (hnd : (moves.map Prod.fst).Nodup) (hlt : ∀ m ∈ moves, m.1 < temp ∧ m.2 < temp)
include hnd hlt

/-- The plan has the effect of all copies at the same time. -/
theorem moveAll_plan (v : Reg → Word) : (∀ m ∈ moves, moveAll (plan moves temp) v m.1 = v m.2) ∧
      ∀ x < temp, x ∉ moves.map Prod.fst → moveAll (plan moves temp) v x = v x := by
  unfold plan
  split
  · rw [moveAll_append]
    constructor
    · intro m hm
      obtain ⟨k, hk, h1, h2⟩ := staged_pairs temp hm
      have hmem : (m.1, k) ∈ (staged temp (moves.map Prod.fst)).map Prod.swap :=
        List.mem_map.2 ⟨(k, m.1), h2, rfl⟩
      have hunstage := moveAll_of_mem (by rwa [unstaged_fst])
        (unstaged_ne fun m hm => (hlt m hm).1) (moveAll (staged temp (moves.map Prod.snd)) v) hmem
      exact hunstage.trans (moveAll_staged (fun m hm => (hlt m hm).2) v h1)
    · intro x hx hnot
      rw [moveAll_of_notMem (by rwa [unstaged_fst]), moveAll_of_lt (fun m hm => (mem_staged hm).1) hx]
  · rename_i hclob
    exact ⟨fun m hm => moveAll_of_mem hnd (ne_of_not_clobbers hclob) v hm,
      fun x _ hnot => moveAll_of_notMem hnot v⟩

/-- While the plan is carried out, a register that is not free holds its own word or the one that it is
to hold. -/
theorem moveAll_take_plan (v : Reg → Word) (i : Nat) (hx : x < temp) :
    moveAll ((plan moves temp).take i) v x = v x ∨
      ∃ y, (x, y) ∈ moves ∧ moveAll ((plan moves temp).take i) v x = v y := by
  unfold plan
  split
  · have hlow : ∀ j, moveAll ((staged temp (moves.map Prod.snd)).take j) v x = v x := fun j =>
      moveAll_of_lt (fun m hm => (mem_staged (List.mem_of_mem_take hm)).1) hx v
    rw [List.take_append, moveAll_append]
    rcases Nat.lt_or_ge i (staged temp (moves.map Prod.snd)).length with hi | hi
    · rw [Nat.sub_eq_zero_of_le hi.le, List.take_zero]
      exact .inl (hlow i)
    rw [List.take_of_length_le hi]
    rcases moveAll_take (by rwa [unstaged_fst]) (unstaged_ne fun m hm => (hlt m hm).1)
      (moveAll (staged temp (moves.map Prod.snd)) v)
      (i - (staged temp (moves.map Prod.snd)).length) x with h | ⟨k, hk, h⟩
    · refine .inl (h.trans ?_)
      exact moveAll_of_lt (fun m hm => (mem_staged hm).1) hx v
    · obtain ⟨m, hm, heq⟩ := List.mem_map.1 hk
      obtain ⟨rfl, rfl⟩ := Prod.mk.inj heq
      obtain ⟨y, hy, hky⟩ := exists_staged_pair hm
      exact .inr ⟨y, hy, h.trans (moveAll_staged (fun m hm => (hlt m hm).2) v hky)⟩
  · rename_i hclob
    exact moveAll_take hnd (ne_of_not_clobbers hclob) v i x

end

/-- The plan mentions what the copies mention and free registers. -/
theorem nonneg_of_mem_plan (htemp : 0 ≤ temp) (h : ∀ m ∈ moves, 0 ≤ m.1 ∧ 0 ≤ m.2) (hm : m ∈ plan moves temp) :
    0 ≤ m.1 ∧ 0 ≤ m.2 := by
  unfold plan at hm
  split at hm
  · rcases List.mem_append.1 hm with hm | hm
    · obtain ⟨hle, hmem⟩ := mem_staged hm
      obtain ⟨n, hn, heq⟩ := List.mem_map.1 hmem
      exact ⟨htemp.trans hle, heq ▸ (h n hn).2⟩
    · obtain ⟨m', hm', rfl⟩ := List.mem_map.1 hm
      obtain ⟨hle, hmem⟩ := mem_staged hm'
      obtain ⟨n, hn, heq⟩ := List.mem_map.1 hmem
      exact ⟨(heq ▸ (h n hn).1 : 0 ≤ m'.2), htemp.trans hle⟩
  · exact h m hm

/-- Each copy reads what was written before all of them or by an earlier one. -/
def Ordered : Set Reg → List (Reg × Reg) → Prop
  | _, [] => True
  | W, m :: ms => m.2 ∈ W ∧ Ordered (insert m.1 W) ms

theorem ordered_of_subset (h : ∀ m ∈ ms, m.2 ∈ W) : Ordered W ms := by
  induction ms generalizing W with
  | nil => trivial
  | cons m ms ih =>
    exact ⟨h m List.mem_cons_self, ih fun n hn => Set.mem_insert_of_mem _ (h n (List.mem_cons_of_mem _ hn))⟩

theorem ordered_append {ns : List (Reg × Reg)} (hms : Ordered W ms)
    (hns : ∀ n ∈ ns, n.2 ∈ W ∨ n.2 ∈ ms.map Prod.fst) : Ordered W (ms ++ ns) := by
  induction ms generalizing W with
  | nil => exact ordered_of_subset fun n hn => (hns n hn).resolve_right (by simp)
  | cons m ms ih =>
    refine ⟨hms.1, ih hms.2 fun n hn => ?_⟩
    rcases hns n hn with hW | hmem
    · exact .inl (Set.mem_insert_of_mem _ hW)
    · rw [List.map_cons, List.mem_cons] at hmem
      exact hmem.imp_left fun (he : n.2 = m.1) => he ▸ Set.mem_insert _ _

theorem staged_fst {α : Type} (temp : Reg) (f g : α → Reg) (xs : List α) :
    (staged temp (xs.map f)).map Prod.fst = (staged temp (xs.map g)).map Prod.fst := by
  induction xs generalizing temp with
  | nil => rfl
  | cons x xs ih => simp only [List.map_cons, staged, ih]

/-- The plan reads free registers only after it has written them. -/
theorem ordered_plan (h : ∀ m ∈ moves, m.2 ∈ W) : Ordered W (plan moves temp) := by
  unfold plan
  split
  · refine ordered_append (ordered_of_subset fun m hm => ?_) fun n hn => .inr ?_
    · obtain ⟨k, hk, heq⟩ := List.mem_map.1 (mem_staged hm).2
      exact heq ▸ h k hk
    · obtain ⟨k, hk, rfl⟩ := List.mem_map.1 hn
      rw [staged_fst temp Prod.snd Prod.fst]
      exact List.mem_map_of_mem hk
  · exact ordered_of_subset h

theorem mem_plan_fst (temp : Reg) (hm : m ∈ moves) : m.1 ∈ (plan moves temp).map Prod.fst := by
  unfold plan
  split
  · obtain ⟨k, -, -, hk⟩ := staged_pairs temp hm
    exact List.mem_map.2 ⟨(m.1, k), List.mem_append_right _ (List.mem_map.2 ⟨_, hk, rfl⟩), rfl⟩
  · exact List.mem_map_of_mem hm

end Gen

/-! ## Running copies -/

namespace Machine.Object

variable {pc : Nat} {x : Instr} {xs ys : List Instr}

/-- The code has the instructions from a place on. -/
def Has (o : Object) (pc : Nat) (xs : List Instr) : Prop :=
  ∀ (i : Nat) x, xs[i]? = some x → o.text[pc + i]? = some x

variable {o : Object}

theorem Has.head (h : o.Has pc (x :: xs)) : o.text[pc]? = some x := h 0 x rfl

theorem Has.tail (h : o.Has pc (x :: xs)) : o.Has (pc + 1) xs := by
  intro i y hy
  rw [Nat.add_right_comm]
  exact h (i + 1) y hy

theorem Has.left (h : o.Has pc (xs ++ ys)) : o.Has pc xs := by
  intro i x hx
  refine h i x ?_
  rw [List.getElem?_append_left (List.getElem?_eq_some_iff.1 hx).1, hx]

theorem Has.right (h : o.Has pc (xs ++ ys)) : o.Has (pc + xs.length) ys := by
  intro i y hy
  rw [Nat.add_assoc]
  refine h _ y ?_
  rw [List.getElem?_append_right (Nat.le_add_right _ _), Nat.add_sub_cancel_left, hy]

theorem Covers.lt_of_has (h : o.Covers) {ms : List (Reg × Reg)}
    (hhas : o.Has pc (ms.map fun m => Gen.copyInstr m.1 m.2)) {m : Reg × Reg} (hm : m ∈ ms) :
    m.1 < o.regs ∧ m.2 < o.regs := by
  obtain ⟨i, hi⟩ := List.mem_iff_getElem?.1 hm
  have hx := hhas i (Gen.copyInstr m.1 m.2) (by rw [List.getElem?_map, hi]; rfl)
  exact ⟨h _ _ hx _ List.mem_cons_self, h _ _ hx _ (List.mem_cons_of_mem _ List.mem_cons_self)⟩

/-- Code that makes copies makes them one by one, and the machine is on an edge all the while. -/
theorem Assembled.passes_copies (h : o.Assembled) (args : Array Word) (ms : List (Reg × Reg)) {k : Nat}
    (hms : ∀ m ∈ ms, (0 ≤ m.1 ∧ m.1 < k) ∧ 0 ≤ m.2 ∧ m.2 < k)
    (hhas : o.Has pc (ms.map fun m => Gen.copyInstr m.1 m.2)) {r : Registers} (hr : r.size = k) (m : Memory)
    {W : Set Reg} (hW : Gen.Ordered W ms) :
    ∃ W' r', (o.watched args).Passes ms.length W ⟨pc, r, m⟩ W' ⟨((pc + ms.length : Nat) : Int), r', m⟩ ∧
      (∀ n ∈ ms, n.1 ∈ W') ∧
      (o.watched args).Stays (fun u => o.OnEdge u ∧ ∃ i, u.regs.read = moveAll (ms.take i) r.read)
        ms.length ⟨pc, r, m⟩ ∧
      r'.size = k ∧ r'.read = moveAll ms r.read := by
  induction ms generalizing pc r W with
  | nil => exact ⟨W, r, .refl _ _, nofun, Watched.stays_zero _, hr, rfl⟩
  | cons n ms ih =>
    obtain ⟨d, s⟩ := n
    obtain ⟨⟨hd, hdlt⟩, hs, hslt⟩ := hms (d, s) List.mem_cons_self
    obtain ⟨d, rfl⟩ := Int.eq_ofNat_of_zero_le hd
    have hx := hhas.head
    rw [← hr] at hdlt hslt
    replace hdlt : d < r.size := Int.ofNat_lt.1 hdlt
    have hstep : o.step args ⟨pc, r, m⟩ =
        .next ⟨((pc + 1 : Nat) : Int), r.setIfInBounds d (r.read s), m⟩ := by
      rw [h.step_compute hdlt hx]
      simp only [Compute.eval, Registers.fetch_eq_read hs hslt]
      rfl
    have hreads : ∀ y ∈ o.readsAt ⟨pc, r, m⟩, y ∈ W := by
      rw [readsAt_eq hx]
      exact fun y hy => List.mem_singleton.1 hy ▸ hW.1
    have hwrites : W ∪ {y | y ∈ o.writesAt ⟨pc, r, m⟩} = insert (d : Reg) W := by
      rw [writesAt_eq hx, Set.insert_eq, Set.union_comm]
      congr 1
      ext y
      exact List.mem_singleton
    obtain ⟨W', r', hpass, hmem, hedge, hsize, hread⟩ :=
      ih (fun m hm => hms m (List.mem_cons_of_mem _ hm)) hhas.tail ((Array.size_setIfInBounds).trans hr) hW.2
    have hcopy : o.OnEdge ⟨pc, r, m⟩ := ⟨_, hx, .inl ⟨d, s, rfl⟩⟩
    have hedge' := hedge.imp (Q := fun u => o.OnEdge u ∧
        ∃ i, u.regs.read = moveAll (((d : Reg), s) :: ms |>.take i) r.read) fun u hu => by
      obtain ⟨hon, i, hi⟩ := hu
      exact ⟨hon, i + 1, by rw [hi, Registers.read_set hdlt, List.take_succ_cons, moveAll_cons]⟩
    refine ⟨W', r', .next hreads hstep ?_, fun n hn => ?_, .cons ⟨hcopy, 0, rfl⟩ hstep hedge', hsize, ?_⟩
    · rw [hwrites]
      rwa [Nat.add_right_comm] at hpass
    · rcases List.mem_cons.1 hn with rfl | hn
      · exact hpass.subset (Set.mem_insert _ _)
      · exact hmem n hn
    · rw [hread, Registers.read_set hdlt, moveAll_cons]

end Machine.Object

end Codesmith
