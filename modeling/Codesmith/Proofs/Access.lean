import Codesmith.Proofs.Execution

/-!
# Registers that are written before they are read

A machine may be watched while it runs: `Passes` says that steps read only what is known to be written,
and adds what they write. `Guarded` says that this goes on for a number of steps, whatever they are. A
relation that passes keep, without standing still forever, guards every run.
-/

namespace Codesmith

variable {σ : Type}

/-- A machine with registers, and what its steps have to do with them. -/
structure Watched (σ : Type) where
  step : σ → Step σ
  regs : σ → Registers
  /-- The registers that the next step reads. -/
  reads : σ → List Reg
  /-- The registers that the next step writes. -/
  writes : σ → List Reg
  /-- The next step is one of those that lead from a block to another. -/
  OnEdge : σ → Prop

namespace Watched

/-- So many steps lead from one state to another and read only registers that were written; the sets
hold what was written before and after them. -/
inductive Passes (d : Watched σ) : Nat → Set Reg → σ → Set Reg → σ → Prop
  | refl (W : Set Reg) (s : σ) : Passes d 0 W s W s
  | next {k : Nat} {W W' : Set Reg} {s s' s'' : σ} : (∀ x ∈ d.reads s, x ∈ W) →
      d.step s = .next s' → Passes d k (W ∪ {x | x ∈ d.writes s}) s' W' s'' →
      Passes d (k + 1) W s W' s''

/-- The next steps read only registers that were written. -/
def Guarded (d : Watched σ) : Nat → Set Reg → σ → Prop
  | 0, _, _ => True
  | n + 1, W, s => (∀ x ∈ d.reads s, x ∈ W) ∧
      ∀ s', d.step s = .next s' → Guarded d n (W ∪ {x | x ∈ d.writes s}) s'

variable {d : Watched σ} {W W' W'' : Set Reg} {s s' s'' : σ} {j k n : Nat}

theorem Passes.walks (h : d.Passes k W s W' s') : Walks d.step k s s' := by
  induction h with
  | refl => exact .refl _
  | next _ hs _ ih => exact .next hs ih

theorem Passes.subset (h : d.Passes k W s W' s') : W ⊆ W' := by
  induction h with
  | refl => exact subset_rfl
  | next _ _ _ ih => exact Set.subset_union_left.trans ih

theorem Passes.one (hr : ∀ x ∈ d.reads s, x ∈ W) (hs : d.step s = .next s') :
    d.Passes 1 W s (W ∪ {x | x ∈ d.writes s}) s' :=
  .next hr hs (.refl _ _)

theorem Passes.trans (h : d.Passes j W s W' s')
    (h' : d.Passes k W' s' W'' s'') : d.Passes (j + k) W s W'' s'' := by
  induction h with
  | refl => rwa [Nat.zero_add]
  | next hr hs _ ih =>
    rw [Nat.add_right_comm]
    exact .next hr hs (ih h')

/-- The states before each of the next steps have a property. -/
def Stays (d : Watched σ) (P : σ → Prop) (k : Nat) (s : σ) : Prop :=
  ∀ i u, i < k → Walks d.step i s u → P u

variable {P : σ → Prop}

theorem stays_zero (s : σ) : d.Stays P 0 s := fun _ _ hi => absurd hi (Nat.not_lt_zero _)

theorem Stays.imp {Q : σ → Prop} (h : d.Stays P k s) (hPQ : ∀ u, P u → Q u) : d.Stays Q k s :=
  fun i u hi hu => hPQ u (h i u hi hu)

theorem Stays.after (h : d.Stays P k s') (hs : d.step s = .next s') {i : Nat} {u : σ}
    (h0 : 0 < i) (hi : i < k + 1) (hu : Walks d.step i s u) : P u := by
  cases hu with
  | refl => exact absurd h0 (Nat.lt_irrefl 0)
  | next hs' hu =>
    obtain rfl := Step.next.inj (hs.symm.trans hs')
    exact h _ u (Nat.lt_of_succ_lt_succ hi) hu

theorem Stays.cons (h : P s) (hs : d.step s = .next s') (h' : d.Stays P k s') : d.Stays P (k + 1) s := by
  intro i u hi hu
  cases i with
  | zero =>
    cases hu
    exact h
  | succ i => exact h'.after hs (Nat.succ_pos i) hi hu

theorem Stays.trans (h : d.Stays P j s) (hw : Walks d.step j s s')
    (h' : d.Stays P k s') : d.Stays P (j + k) s := by
  intro i u hi hu
  rcases Nat.lt_or_ge i j with hij | hij
  · exact h i u hij hu
  · exact h' (i - j) u (by omega) (hw.sub hu hij)

theorem Guarded.of_le (h : d.Guarded n W s) (hk : k ≤ n) : d.Guarded k W s := by
  induction k generalizing n W s with
  | zero => trivial
  | succ k ih =>
    obtain ⟨n, rfl⟩ : ∃ m, n = m + 1 := ⟨n - 1, by omega⟩
    exact ⟨h.1, fun s' hs => ih (h.2 s' hs) (by omega)⟩

theorem Passes.guarded (h : d.Passes k W s W' s') (hg : d.Guarded n W' s') : d.Guarded (k + n) W s := by
  induction h with
  | refl => rwa [Nat.zero_add]
  | next hr hs _ ih =>
    rw [Nat.add_right_comm]
    exact ⟨hr, fun t ht => Step.next.inj (hs.symm.trans ht) ▸ ih hg⟩

/-- What a guarded run reads was written at the beginning or by an earlier step. -/
theorem Guarded.written (h : d.Guarded (k + 1) W s) (hw : Walks d.step k s s') {x : Reg}
    (hx : x ∈ d.reads s') : x ∈ W ∨ ∃ j t, j < k ∧ Walks d.step j s t ∧ x ∈ d.writes t := by
  induction hw generalizing W with
  | refl => exact .inl (h.1 x hx)
  | @next k s s' s'' hs hw ih =>
    rcases ih (h.2 s' hs) hx with (hW | hwrite) | ⟨j, t, hj, ht, hwrite⟩
    · exact .inl hW
    · exact .inr ⟨0, s, Nat.succ_pos k, .refl s, hwrite⟩
    · exact .inr ⟨j + 1, t, Nat.succ_lt_succ hj, .next hs ht, hwrite⟩

/-- A relation guards a run if from every related state the run ends at once, or passes to a related
state. Where it passes by no step, the measure decreases. -/
theorem guarded_of_rel (rel : Set Reg → σ → Nat → Prop)
    (hrel : ∀ W s μ, rel W s μ → ((∀ x ∈ d.reads s, x ∈ W) ∧ ∀ s', d.step s ≠ .next s') ∨
      ∃ k W' s' μ', d.Passes k W s W' s' ∧ rel W' s' μ' ∧ (k = 0 → μ' < μ))
    {μ : Nat} (h : rel W s μ) (n : Nat) : d.Guarded n W s := by
  induction n using Nat.strong_induction_on generalizing W s μ with
  | _ n ihn =>
    induction μ using Nat.strong_induction_on generalizing W s with
    | _ μ ihμ =>
      cases n with
      | zero => trivial
      | succ n =>
        rcases hrel W s μ h with ⟨hr, hstop⟩ | ⟨k, W', s', μ', hpass, h', hk⟩
        · exact ⟨hr, fun s' hs => absurd hs (hstop s')⟩
        cases k with
        | zero =>
          cases hpass
          exact ihμ μ' (hk rfl) h'
        | succ k =>
          have hg := hpass.guarded (ihn (n - k) (by omega) h')
          exact hg.of_le (by omega)

end Watched

end Codesmith
