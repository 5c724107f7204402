import Codesmith.Proofs.Execution
import Codesmith.Proofs.Ssa.Compile

/-!
# Commands do what lines do

A command of a compiled function does what its line does, and a block is left as the chart leaves it. The
arguments are in place before the first command, where a chart takes them over by the first lines of the
entry.
-/

namespace Codesmith.Ssa.Program

open Gen (Act Chart ChartBlock Home)

variable {p : Program} {f : Func} {c : Chart} (args : Array Word)
variable {x : Ref} {r : Registers} {v : Ref → Word} {l : Label} {i : Nat}

/-- The registers hold the values of the chart. -/
structure Holds (f : Func) (r : Registers) (v : Ref → Word) : Prop where
  size : r.size = f.entries.size
  read : ∀ x, r.read x = v x

theorem lt_entries (h : f.Draws c) (hx : c.home x ≠ none) : x < f.entries.size := by
  obtain ⟨q, hq⟩ := Option.ne_none_iff_exists'.1 hx
  obtain ⟨e, he, -⟩ := h.home x q hq
  obtain ⟨n, rfl, hn⟩ := fetch?_eq_some_iff.1 he
  exact Int.ofNat_lt.2 (Array.getElem?_eq_some_iff.1 hn).1

theorem Holds.fetch (hr : Holds f r v) (h : f.Draws c) (hc : c.Consistent) (hx : c.home x ≠ none) :
    fetch r x = .ok (v x) := by
  rw [← hr.read x]
  exact Registers.fetch_eq_read (hc.nonneg x hx) (hr.size ▸ lt_entries h hx)

theorem Holds.write (hr : Holds f r v) {n : Nat} (hn : n < f.entries.size) (w : Word) :
    Registers.write r (n : Int) w = .ok (r.setIfInBounds n w) ∧
      Holds f (r.setIfInBounds n w) (Function.update v n w) := by
  have hlt : n < r.size := hr.size ▸ hn
  refine ⟨write_natCast r hlt w, by rw [Array.size_setIfInBounds, hr.size], fun x => ?_⟩
  rw [Registers.read_set hlt, Function.update_apply, Function.update_apply, hr.read x]

section

variable (h : f.Draws c) (hc : c.Consistent)
include h hc

theorem exec_line {a : Act} (ha : (c.block l).code[i]? = some a) {cmd : Command}
    (hcmd : a.command? = some cmd) (hr : Holds f r v) (m : Memory) : match a.run args v m with
    | .error e => cmd.exec r m = .error (e, m)
    | .ok (v', m') => ∃ r', cmd.exec r m = .ok (r', m') ∧ Holds f r' v' := by
  have hread : ∀ x ∈ a.reads, Codesmith.fetch r x = .ok (v x) := fun x hx =>
    hr.fetch h hc (hc.typed x ((hc.lines l a (List.mem_of_getElem? ha)).reads x hx))
  cases a with
  | compute out k =>
    cases hcmd
    have hhome : c.home out ≠ none := by rw [hc.out l i _ out ha rfl]; exact nofun
    obtain ⟨n, rfl⟩ := Int.eq_ofNat_of_zero_le (hc.nonneg out hhome)
    rw [Act.run, Command.exec, Compute.eval_eq_value m hread, Int.toNat_natCast]
    cases k.value v m with
    | error e => rfl
    | ok w =>
      obtain ⟨hw, hr'⟩ := hr.write (Int.ofNat_lt.1 (lt_entries h hhome)) w
      simp only [Except.map, hw]
      exact ⟨_, rfl, hr'⟩
  | arg out n => cases hcmd
  | store k p x =>
    cases hcmd
    rw [Act.run, Command.exec, storeFrom, hread p (by simp [Act.reads]),
      hread x (by simp [Act.reads]), Memory.store]
    cases hf : m.storeFault? k (v p) with
    | some e => simp [hf, Except.map]
    | none =>
      simp only [hf, Except.map]
      exact ⟨r, rfl, hr⟩

/-! ## Exits -/

theorem take_edge (hw : c.WellFormed) (hl : Graph.Reaches c.succs l) {t : BlockId} (ht : 0 ≤ t ∧ t < c.size)
    (e : Graph.Edge c.succs l t.toNat) (hr : Holds f r v) :
    ∃ r', (f.edge l t).take r = .ok r' ∧ Holds f r' (c.enter l t.toNat v) := by
  have hmoves := h.copies_eq hc hl ht (hl.step e)
  have hmem : ∀ q ∈ (f.edge l t).copies, ((q.1 : Ref), q.2) ∈ c.moves l t.toNat := fun q hq =>
    hmoves ▸ List.mem_map_of_mem hq
  have hcopies : ∀ q ∈ (f.edge l t).copies, q.1 < r.size ∧ 0 ≤ q.2 ∧ q.2 < r.size := by
    intro q hq
    obtain ⟨h1, h2⟩ := hw.home_of_mem_moves hc hl e (hmem q hq)
    rw [hr.size]
    exact ⟨Int.ofNat_lt.1 (lt_entries h h1), hc.nonneg _ h2, lt_entries h h2⟩
  have hnd : ((f.edge l t).copies.map Prod.fst).Nodup := by
    have := hw.moves_nodup hc hl e
    rw [← hmoves, List.map_map] at this
    refine List.Nodup.of_map (fun n : Nat => (n : Ref)) ?_
    rwa [List.map_map]
  obtain ⟨r', hok, hsize, hmoved, hkept⟩ := Edge.take_ok hcopies hnd
  refine ⟨r', hok, hsize.trans hr.size, fun x => hw.eq_enter hl e (fun q hq => ?_) fun hx' => ?_⟩
  · rw [← hmoves] at hq
    obtain ⟨q', hq', rfl⟩ := List.mem_map.1 hq
    rw [hmoved q' hq']
    exact hr.read _
  · rw [hkept x fun q hq he => hx' ?_]
    · exact hr.read x
    · rw [he]
      exact List.mem_map.2 ⟨_, hmem q hq, rfl⟩

/-- A block is left as the chart leaves it. -/
theorem leave_exit (hw : c.WellFormed) (hl : Graph.Reaches c.succs l) {e : Gen.Exit}
    (he : (c.block l).exit = some e) (hr : Holds f r v) (i : Nat) (m : Memory) :
    (∃ w, leave r m (f.exit l e.expr) = .done w m ∧ c.leave ⟨l, i, v, m⟩ e = .done w m) ∨
      ∃ (t : BlockId) (r' : Registers), leave r m (f.exit l e.expr) = .next ⟨t, r', m⟩ ∧
        c.leave ⟨l, i, v, m⟩ e = .next (c.go ⟨l, i, v, m⟩ t) ∧ 0 ≤ t ∧
        Graph.Edge c.succs l t.toNat ∧ Holds f r' (c.enter l t.toNat v) := by
  have hfetch : ∀ x ∈ e.reads, fetch r x = .ok (v x) := fun x hx =>
    hr.fetch h hc (hw.exits l hl e he x hx).home_ne_none
  have hgo : ∀ t ∈ e.targets, ∃ r', follow (f.edge l t) r m = .next ⟨t, r', m⟩ ∧ 0 ≤ t ∧
      Graph.Edge c.succs l t.toNat ∧ Holds f r' (c.enter l t.toNat v) := by
    intro t ht
    obtain ⟨hrange, hedge⟩ := hc.edge he ht
    obtain ⟨r', hok, hr'⟩ := take_edge h hc hw hl hrange hedge hr
    exact ⟨r', by rw [follow, hok]; rfl, hrange.1, hedge, hr'⟩
  cases e with
  | jump t =>
    obtain ⟨r', hfollow, hspec⟩ := hgo t (List.mem_singleton.2 rfl)
    exact .inr ⟨t, r', hfollow, rfl, hspec⟩
  | branch x yes no =>
    have hx := hfetch x (List.mem_singleton.2 rfl)
    by_cases hne : yes = no
    · subst hne
      obtain ⟨r', hfollow, hspec⟩ := hgo yes (by simp [Gen.Exit.targets])
      refine .inr ⟨yes, r', ?_, by simp [Chart.leave], hspec⟩
      simpa [Gen.Exit.expr, Func.exit, leave] using hfollow
    · have hmem : (if (v x).isTrue then yes else no) ∈ (Gen.Exit.branch x yes no).targets := by
        simp only [Gen.Exit.targets, if_neg hne]
        split <;> simp
      obtain ⟨r', hfollow, hspec⟩ := hgo _ hmem
      refine .inr ⟨_, r', ?_, rfl, hspec⟩
      simp only [Gen.Exit.expr, Func.exit, if_neg hne, leave, hx]
      rw [← hfollow]
      split <;> rfl
  | ret x =>
    cases x with
    | none => exact .inl ⟨_, rfl, rfl⟩
    | some x =>
      have hx := hfetch x (List.mem_singleton.2 rfl)
      refine .inl ⟨v x, ?_, rfl⟩
      simp [Gen.Exit.expr, Func.exit, leave, hx]

end

/-! ## Arguments -/

/-- The place of the first line after the arguments. -/
def firstPlace (c : Chart) (l : Label) : Nat :=
  if l = Graph.entry then c.sig.params.length else 0

/-- The lines after the arguments are those with commands. -/
theorem filterMap_command (hc : c.Consistent) (l : Label) : (c.block l).code.filterMap Act.command? =
        ((c.block l).code.drop (firstPlace c l)).filterMap Act.command? ∧
      ∀ a ∈ (c.block l).code.drop (firstPlace c l), a.command? ≠ none := by
  have hargs : ((c.block l).code.take (firstPlace c l)).filterMap Act.command? = [] := by
    refine List.filterMap_eq_nil_iff.2 fun a ha => ?_
    obtain ⟨i, hi⟩ := List.mem_iff_getElem?.1 ha
    rw [List.getElem?_take] at hi
    split at hi
    · rename_i hlt
      unfold firstPlace at hlt
      split at hlt
      · rename_i hl
        rw [hl, hc.args i hlt] at hi
        rw [← Option.some.inj hi]
        rfl
      · exact absurd hlt (Nat.not_lt_zero i)
    · cases hi
  constructor
  · conv_lhs => rw [← List.take_append_drop (firstPlace c l) (c.block l).code]
    rw [List.filterMap_append, hargs, List.nil_append]
  · intro a ha hnone
    obtain ⟨j, hj⟩ := List.mem_iff_getElem?.1 ha
    rw [List.getElem?_drop] at hj
    cases a with
    | arg out n =>
      obtain ⟨hl, hi, -, hn⟩ := hc.only _ _ _ _ hj
      rw [firstPlace, if_pos hl] at hi
      omega
    | compute out k => cases hnone
    | store k p x => cases hnone

/-- The arguments are put in place as the first lines of the entry take them over. -/
theorem placeArgs_ok (h : f.Draws c) (hc : c.Consistent) (hargs : args.size = c.sig.params.length) (k : Nat)
    (hi : i + k = c.sig.params.length) (hr : Holds f r v) (m : Memory) :
    ∃ r' v', placeArgs args i (List.range' i k) r = .ok r' ∧ Holds f r' v' ∧
      Walks (c.step args) k ⟨Graph.entry, i, v, m⟩ ⟨Graph.entry, i + k, v', m⟩ := by
  induction k generalizing i r v with
  | zero => exact ⟨r, v, rfl, hr, .refl _⟩
  | succ k ih =>
    have hlt : i < c.sig.params.length := by omega
    have hget : fetch args (i : Int) = .ok (args.getD i Word.zero) := by
      refine fetch_natCast ?_
      rw [Array.getD_eq_getD_getElem?, Array.getElem?_eq_getElem (hargs ▸ hlt)]
      rfl
    have hline := hc.args i hlt
    have hhome : c.home (i : Int) ≠ none := by rw [hc.out _ _ _ _ hline rfl]; exact nofun
    obtain ⟨hwrite, hr'⟩ := hr.write (Int.ofNat_lt.1 (lt_entries h hhome)) (args.getD i Word.zero)
    have hstep : c.step args ⟨Graph.entry, i, v, m⟩ =
        .next ⟨Graph.entry, i + 1, Function.update v i (args.getD i Word.zero), m⟩ := by
      simp only [Chart.step, hline, Act.run, hget, Except.map]
    obtain ⟨r'', v'', hplaced, hr'', hwalk⟩ := ih (by omega : i + 1 + k = _) hr'
    refine ⟨r'', v'', ?_, hr'', Nat.add_right_comm i 1 k ▸ .next hstep hwalk⟩
    rw [List.range'_succ, placeArgs, hget]
    simp only [hwrite]
    exact hplaced

end Codesmith.Ssa.Program
