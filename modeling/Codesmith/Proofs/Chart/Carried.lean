import Codesmith.Proofs.Chart.Available
import Codesmith.Proofs.Execution

/-!
# What the values at the head of a block hold

In a run of a well-formed chart, a value at the head of a block holds what the edge carried through
which control last entered that block, wherever the value is available.
-/

namespace Codesmith.Gen

theorem Act.run_of_ne {args : Array Word} {v v' : Ref → Word} {m m' : Memory} {a : Act} {x : Ref}
    (h : a.run args v m = .ok (v', m')) (hx : a.out? ≠ some x) : v' x = v x := by
  have hne : ∀ {out : Ref} {w : Word}, some out ≠ some x → Function.update v out w x = v x :=
    fun ho => Function.update_of_ne (fun he => ho (congrArg some he.symm)) _ _
  cases a with
  | compute | arg =>
    obtain ⟨w, -, heq⟩ := map_eq_ok.1 h
    rw [← (Prod.mk.inj heq).1]
    exact hne hx
  | store =>
    obtain ⟨m'', -, heq⟩ := map_eq_ok.1 h
    exact congrFun (Prod.mk.inj heq).1.symm x

namespace Chart

variable {c : Chart} {args : Array Word} {s₀ s s' : State}
variable {k : Nat} {b : Label}

/-- A step executes a line or takes an edge. -/
theorem step_cases (hc : c.Consistent) (h : c.step args s = .next s') :
    (∃ a v m', (c.block s.block).code[s.place]? = some a ∧
        a.run args s.values s.memory = .ok (v, m') ∧ s' = ⟨s.block, s.place + 1, v, m'⟩) ∨
      ∃ t : BlockId, c.length s.block ≤ s.place ∧ Graph.Edge c.succs s.block t.toNat ∧ s' = c.go s t := by
  unfold step at h
  split at h
  · rename_i a ha
    split at h
    · cases h
    · rename_i v m' hrun
      exact .inl ⟨a, v, m', ha, hrun, (Step.next.inj h).symm⟩
  · rename_i hnone
    refine .inr ?_
    split at h
    · rename_i e he
      have hedge : ∀ t ∈ e.targets, Graph.Edge c.succs s.block t.toNat := fun t ht => (hc.edge he ht).2
      refine (?_ : ∃ t, t ∈ e.targets ∧ s' = c.go s t).imp fun t ht =>
        ⟨List.getElem?_eq_none_iff.1 hnone, hedge t ht.1, ht.2⟩
      cases e with
      | jump t => exact ⟨t, List.mem_singleton.2 rfl, (Step.next.inj h).symm⟩
      | branch x yes no =>
        refine ⟨_, ?_, (Step.next.inj h).symm⟩
        simp only [Exit.targets]
        by_cases hne : yes = no
        · simp [hne]
        · rw [if_neg hne]
          split <;> simp
      | ret x => cases x <;> cases h
    · cases h

/-- The state is one of a run: control is in a reached block. -/
structure Reached (c : Chart) (s : State) : Prop where
  block : Graph.Reaches c.succs s.block
  place : s.place ≤ c.length s.block

theorem reached_start (m : Memory) : c.Reached (start m) :=
  ⟨Graph.reaches_entry, Nat.zero_le _⟩

theorem Reached.step (hc : c.Consistent) (h : c.Reached s) (hs : c.step args s = .next s') :
    c.Reached s' := by
  rcases step_cases hc hs with ⟨a, v, m', ha, -, rfl⟩ | ⟨t, -, hedge, rfl⟩
  · exact ⟨h.block, (List.getElem?_eq_some_iff.1 ha).1⟩
  · exact ⟨h.block.step hedge, Nat.zero_le _⟩

theorem Reached.walks (hc : c.Consistent) (h : c.Reached s) (hw : Walks (c.step args) k s s') :
    c.Reached s' := by
  induction hw with
  | refl => exact h
  | next hs _ ih => exact ih (h.step hc hs)

/-- Control is at the end of a block and goes on to another. -/
def Enters (c : Chart) (args : Array Word) (s : State) (b : Label) : Prop :=
  s.place = c.length s.block ∧ ∃ s', c.step args s = .next s' ∧ s'.block = b

/-- Of the first `k` steps of a run, step `j` is the last to enter a block, and `u` is the state before
it. -/
structure LastEntered (c : Chart) (args : Array Word) (s₀ : State) (k : Nat) (b : Label) (j : Nat)
    (u : State) : Prop where
  lt : j < k
  walks : Walks (c.step args) j s₀ u
  enters : c.Enters args u b
  last : ∀ i w, j < i → i < k → Walks (c.step args) i s₀ w → ¬ c.Enters args w b

theorem LastEntered.succ {j : Nat} {u : State} (h : c.LastEntered args s₀ k b j u)
    (hs : Walks (c.step args) k s₀ s) (hno : ¬ c.Enters args s b) : c.LastEntered args s₀ (k + 1) b j u where
  lt := h.lt.trans (Nat.lt_succ_self k)
  walks := h.walks
  enters := h.enters
  last i w hi hik hw := by
    rcases Nat.lt_succ_iff_lt_or_eq.1 hik with hlt | rfl
    · exact h.last i w hi hlt hw
    · exact hw.unique hs ▸ hno

/-- Where a value at the head of a block is available, it holds what the last edge into the block
carried. -/
theorem exists_lastEntered (hc : c.Consistent) (hw : c.WellFormed) (h0 : c.Reached s₀)
    (hentry : s₀.block = Graph.entry) (hs : Walks (c.step args) k s₀ s) {x : Ref}
    (hx : c.home x = some ⟨b, none⟩) (hb : b ≠ Graph.entry) (ha : c.Available s.block s.place x) :
    ∃ j u y, c.LastEntered args s₀ k b j u ∧ c.carried? u.block x = some y ∧ c.home y ≠ none ∧
      s.values x = u.values y := by
  induction k generalizing s with
  | zero =>
    cases hs
    rw [hentry] at ha
    exact absurd (List.mem_singleton.1 (ha.mem_trail hx .entry)) hb
  | succ k ih =>
    obtain ⟨p, hp, hstep⟩ := hs.last
    have hreach := h0.walks hc hp
    rcases step_cases hc hstep with ⟨a, v, m', hline, hrun, rfl⟩ | ⟨t, hlen, hedge, rfl⟩
    · -- A line leaves the value alone and enters no block.
      have hne : c.home x ≠ some ⟨p.block, some p.place⟩ := by
        rw [hx]
        exact fun h => nomatch congrArg Home.place (Option.some.inj h)
      obtain ⟨j, u, y, hlast, hy, hhome, hv⟩ := ih hp (ha.of_succ.resolve_right hne)
      refine ⟨j, u, y, hlast.succ hp fun hent => ?_, hy, hhome, ?_⟩
      · have hlt := (List.getElem?_eq_some_iff.1 hline).1
        exact absurd hent.1 (Nat.ne_of_lt hlt)
      · exact (Act.run_of_ne hrun fun ho => hne (hc.out _ _ _ _ hline ho)).trans hv
    · have hplace := le_antisymm hreach.place hlen
      by_cases hbt : b = t.toNat
      · -- The value joins what this edge carries.
        subst hbt
        have hphi := (hc.phi _ x).2 hx
        obtain ⟨y, hy, -, hav, -⟩ := (hw.joins _ (hreach.block.step hedge) x hphi).carried hreach.block hedge
        refine ⟨k, p, y, ⟨Nat.lt_succ_self k, hp, ⟨hplace, _, hstep, rfl⟩, fun i w hi hik => ?_⟩, hy,
          hav.home_ne_none, ?_⟩
        · omega
        · simp only [go, enter, if_pos hphi, hy, Option.getD_some]
      · have hphi : x ∉ (c.block t.toNat).phis := fun hmem => by
          have := (hc.phi _ x).1 hmem
          rw [hx] at this
          exact hbt (congrArg Home.block (Option.some.inj this))
        obtain ⟨j, u, y, hlast, hy, hhome, hv⟩ :=
          ih hp (hplace.symm ▸ (ha.of_edge hc hedge).resolve_left hphi)
        refine ⟨j, u, y, hlast.succ hp fun hent => ?_, hy, hhome, ?_⟩
        · obtain ⟨-, q, hq, hqb⟩ := hent
          rw [← Step.next.inj (hstep.symm.trans hq)] at hqb
          exact hbt hqb.symm
        · simp only [go, enter, if_neg hphi]
          exact hv

end Chart

end Codesmith.Gen
