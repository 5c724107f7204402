import Mathlib
import Codesmith.Execution

/-!
# How runs end

`Ends` says how a run ends without a bound on its length, and agrees with what `iterate` finds when it
is allowed enough steps. Two machines end alike if every step of the first is matched by steps of the
second; steps may be matched by none as long as that cannot go on forever.
-/

namespace Codesmith

variable {σ τ : Type}
variable {j k n : Nat} {step' : τ → Step τ} {rel : σ → τ → Prop} {measure : σ → Nat} {a : σ} {b : τ}

/-- The outcome that a step brings, if it is the last one. -/
def Step.end? : Step σ → Option (Outcome Word)
  | next _ => none
  | done w m => some (.done w m)
  | fault f m => some (.fault f m)

/-- The run from a state ends with an outcome. -/
inductive Ends (step : σ → Step σ) : σ → Outcome Word → Prop
  | stop {s : σ} {o : Outcome Word} : (step s).end? = some o → Ends step s o
  | next {s s' : σ} {o : Outcome Word} : step s = .next s' → Ends step s' o → Ends step s o

/-- So many steps lead from one state to another. -/
inductive Walks (step : σ → Step σ) : Nat → σ → σ → Prop
  | refl (s : σ) : Walks step 0 s s
  | next {k : Nat} {s s' s'' : σ} : step s = .next s' → Walks step k s' s'' → Walks step (k + 1) s s''

variable {step : σ → Step σ} {s s' s'' : σ} {o : Outcome Word}

theorem Step.next_of_end?_eq_none {r : Step σ} (h : r.end? = none) : ∃ s, r = .next s := by
  cases r with
  | next s => exact ⟨s, rfl⟩
  | done => cases h
  | fault => cases h

theorem iterate_stop (h : (step s).end? = some o) (fuel : Nat) : iterate step (fuel + 1) s = o := by
  rw [iterate]
  cases hs : step s with
  | next => rw [hs] at h; cases h
  | done => rw [hs] at h; exact Option.some.inj h
  | fault => rw [hs] at h; exact Option.some.inj h

theorem iterate_next (h : step s = .next s') (fuel : Nat) :
    iterate step (fuel + 1) s = iterate step fuel s' := by
  rw [iterate, h]

theorem Ends.ne_unfinished (h : Ends step s o) : o ≠ .unfinished := by
  induction h with
  | @stop s o h =>
    rintro rfl
    cases hs : step s <;> rw [hs] at h <;> cases h
  | next _ _ ih => exact ih

theorem Ends.iterate (h : Ends step s o) : ∃ fuel, iterate step fuel s = o := by
  induction h with
  | stop h => exact ⟨1, iterate_stop h 0⟩
  | next h _ ih =>
    obtain ⟨fuel, ih⟩ := ih
    exact ⟨fuel + 1, (iterate_next h fuel).trans ih⟩

theorem ends_of_iterate {fuel : Nat} (h : iterate step fuel s = o) (ho : o ≠ .unfinished) :
    Ends step s o := by
  induction fuel generalizing s with
  | zero => exact absurd h.symm ho
  | succ fuel ih =>
    cases hs : (step s).end? with
    | some o' => exact .stop (hs.trans (congrArg some ((iterate_stop hs fuel).symm.trans h)))
    | none =>
      obtain ⟨s', hs'⟩ := Step.next_of_end?_eq_none hs
      exact .next hs' (ih ((iterate_next hs' fuel).symm.trans h))

theorem ends_iff : Ends step s o ↔ o ≠ .unfinished ∧ ∃ fuel, iterate step fuel s = o :=
  ⟨fun h => ⟨h.ne_unfinished, h.iterate⟩, fun ⟨ho, _, h⟩ => ends_of_iterate h ho⟩

theorem Ends.unique {o' : Outcome Word} (h : Ends step s o) (h' : Ends step s o') : o = o' := by
  induction h with
  | stop h =>
    cases h' with
    | stop h' => exact Option.some.inj (h.symm.trans h')
    | next h' _ => rw [h'] at h; cases h
  | next h _ ih =>
    cases h' with
    | stop h' => rw [h] at h'; cases h'
    | next h' hr =>
      obtain rfl := Step.next.inj (h.symm.trans h')
      exact ih hr

/-! ## Steps in a row -/

theorem Walks.one (h : step s = .next s') : Walks step 1 s s' :=
  .next h (.refl s')

theorem Walks.trans (h : Walks step j s s') (h' : Walks step k s' s'') : Walks step (j + k) s s'' := by
  induction h with
  | refl => rwa [Nat.zero_add]
  | next hs _ ih =>
    rw [Nat.add_right_comm]
    exact .next hs (ih h')

theorem Walks.unique (h : Walks step k s s') (h' : Walks step k s s'') : s' = s'' := by
  induction h with
  | refl =>
    cases h'
    rfl
  | next hs _ ih =>
    cases h' with
    | next hs' h' => exact ih (Step.next.inj (hs.symm.trans hs') ▸ h')

theorem Walks.sub (h : Walks step j s s') (h' : Walks step k s s'') (hle : j ≤ k) :
    Walks step (k - j) s' s'' := by
  induction h generalizing k with
  | refl => exact h'
  | next hs _ ih =>
    cases h' with
    | refl => exact absurd hle (Nat.not_succ_le_zero _)
    | next hs' h' =>
      rw [Nat.succ_sub_succ]
      exact ih (Step.next.inj (hs.symm.trans hs') ▸ h') (Nat.le_of_succ_le_succ hle)

theorem Walks.last (h : Walks step (k + 1) s s'') : ∃ s', Walks step k s s' ∧ step s' = .next s'' := by
  induction k generalizing s with
  | zero =>
    cases h with
    | next hs h =>
      cases h
      exact ⟨s, .refl s, hs⟩
  | succ k ih =>
    cases h with
    | next hs h =>
      obtain ⟨t, ht, hlast⟩ := ih h
      exact ⟨t, .next hs ht, hlast⟩

theorem Walks.ends (h : Walks step k s s') (h' : Ends step s' o) : Ends step s o := by
  induction h with
  | refl => exact h'
  | next hs _ ih => exact .next hs (ih h')

theorem Walks.ends_iff (h : Walks step k s s') : Ends step s o ↔ Ends step s' o := by
  refine ⟨fun he => ?_, h.ends⟩
  induction h with
  | refl => exact he
  | next hs _ ih =>
    cases he with
    | stop hstop => rw [hs] at hstop; cases hstop
    | next hs' he => exact ih (Step.next.inj (hs.symm.trans hs') ▸ he)

/-- A run that ends after `n` steps and walks `k` of them ends after the others. -/
theorem Walks.iterate_sub (h : Walks step k s s') (hn : Codesmith.iterate step n s = o) (ho : o ≠ .unfinished) :
    k ≤ n ∧ Codesmith.iterate step (n - k) s' = o := by
  induction h generalizing n with
  | refl => exact ⟨Nat.zero_le n, hn⟩
  | @next k s s' s'' hs _ ih =>
    cases n with
    | zero => exact absurd hn.symm ho
    | succ n =>
      rw [iterate_next hs] at hn
      obtain ⟨hle, h⟩ := ih hn
      exact ⟨Nat.succ_le_succ hle, by rwa [Nat.succ_sub_succ]⟩

/-! ## Simulation -/

/-- Every step of the first machine is matched by steps of the second. Where it is matched by none,
the measure decreases. -/
structure Simulates (step : σ → Step σ) (step' : τ → Step τ) (rel : σ → τ → Prop) (measure : σ → Nat) :
    Prop where
  next : ∀ {a b a'}, rel a b → step a = .next a' →
    ∃ k b', Walks step' k b b' ∧ rel a' b' ∧ (k = 0 → measure a' < measure a)
  stop : ∀ {a b o}, rel a b → (step a).end? = some o → Ends step' b o

theorem Simulates.ends (sim : Simulates step step' rel measure) (h : rel a b) (ha : Ends step a o) :
    Ends step' b o := by
  induction ha generalizing b with
  | stop hs => exact sim.stop h hs
  | next hs _ ih =>
    obtain ⟨k, b', hk, hrel, -⟩ := sim.next h hs
    exact hk.ends (ih hrel)

theorem Simulates.of_iterate (sim : Simulates step step' rel measure) (h : rel a b)
    (hb : iterate step' n b = o) (ho : o ≠ .unfinished) : Ends step a o := by
  -- Either steps of the second machine are used up, or the measure decreases.
  induction n using Nat.strong_induction_on generalizing a b with
  | _ n ihn =>
    induction hm : measure a using Nat.strong_induction_on generalizing a b with
    | _ m ihm =>
      subst hm
      cases hs : (step a).end? with
      | some o' => exact (sim.stop h hs).unique (ends_of_iterate hb ho) ▸ .stop hs
      | none =>
        obtain ⟨a', ha'⟩ := Step.next_of_end?_eq_none hs
        obtain ⟨k, b', hk, hrel, hmeasure⟩ := sim.next h ha'
        obtain ⟨hle, hb'⟩ := hk.iterate_sub hb ho
        refine .next ha' ?_
        by_cases hk0 : k = 0
        · subst hk0
          exact ihm _ (hmeasure rfl) hrel hb' rfl
        · exact ihn (n - k) (by omega) hrel hb'

/-- Whatever the first machine reaches, the second reaches what is related to it. -/
theorem Simulates.walks (sim : Simulates step step' rel measure) {a' : σ} (h : rel a b)
    (ha : Walks step k a a') : ∃ n b', Walks step' n b b' ∧ rel a' b' := by
  induction ha generalizing b with
  | refl => exact ⟨0, b, .refl b, h⟩
  | next hs _ ih =>
    obtain ⟨j, b', hj, hrel, -⟩ := sim.next h hs
    obtain ⟨n, b'', hn, hrel'⟩ := ih hrel
    exact ⟨j + n, b'', hj.trans hn, hrel'⟩

theorem Simulates.ends_iff (sim : Simulates step step' rel measure) (h : rel a b) :
    Ends step a o ↔ Ends step' b o := by
  refine ⟨sim.ends h, fun hb => ?_⟩
  obtain ⟨n, hn⟩ := hb.iterate
  exact sim.of_iterate h hn hb.ne_unfinished

end Codesmith
