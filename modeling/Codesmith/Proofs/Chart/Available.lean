import Codesmith.Proofs.Chart.Moves

/-!
# Available values along runs

What is available at a place of a block was available one step before, or the step defines it. So runs
of well-formed charts read no value before it is defined.
-/

namespace Codesmith.Gen

namespace Act

variable {a : Act} {x : Ref} {f : Ref → Ref}

/-- The line with every value renamed. -/
def rename (f : Ref → Ref) : Act → Act
  | compute out c => compute (f out) (c.rename f)
  | arg out n => arg (f out) n
  | store k p x => store k (f p) (f x)

@[simp] theorem reads_rename (f : Ref → Ref) (a : Act) : (a.rename f).reads = a.reads.map f := by
  cases a with
  | compute out c => exact c.reads_rename f
  | arg out n => rfl
  | store k p x => rfl

@[simp] theorem out?_rename (f : Ref → Ref) (a : Act) : (a.rename f).out? = a.out?.map f := by
  cases a <;> rfl

/-- The values after a line has written a word. -/
def put (a : Act) (v : Ref → Word) (w : Word) : Ref → Word :=
  match a.out? with
  | some x => Function.update v x w
  | none => v

theorem put_of_out (h : a.out? = some x) (v : Ref → Word) (w : Word) : a.put v w x = w := by
  rw [put, h]
  exact Function.update_self x w v

theorem put_of_ne (h : a.out? ≠ some x) (v : Ref → Word) (w : Word) : a.put v w x = v x := by
  unfold put
  cases hy : a.out? with
  | none => rfl
  | some y =>
    have hne : x ≠ y := fun he => h (he ▸ hy)
    exact Function.update_of_ne hne w v

/-- What a line writes and how it may fail depends only on what it reads. -/
theorem run_rename (args : Array Word) {v v' : Ref → Word} (m : Memory) (h : ∀ x ∈ a.reads, v' (f x) = v x) :
    (∃ e, a.run args v m = .error e ∧ (a.rename f).run args v' m = .error e) ∨
      ∃ w m', a.run args v m = .ok (a.put v w, m') ∧
        (a.rename f).run args v' m = .ok ((a.rename f).put v' w, m') := by
  cases a with
  | compute out c =>
    have hc : (c.rename f).value v' m = c.value v m := Compute.value_rename m h
    simp only [run, rename, hc]
    cases c.value v m with
    | error e => exact .inl ⟨e, rfl, rfl⟩
    | ok w => exact .inr ⟨w, m, rfl, rfl⟩
  | arg out n =>
    simp only [run, rename]
    cases fetch args n with
    | error e => exact .inl ⟨e, rfl, rfl⟩
    | ok w => exact .inr ⟨w, m, rfl, rfl⟩
  | store k p x =>
    have hp := h p (by simp [reads])
    have hx := h x (by simp [reads])
    simp only [run, rename, hp, hx]
    cases m.store k (v p) (v x) with
    | error e => exact .inl ⟨e, rfl, rfl⟩
    | ok m' => exact .inr ⟨Word.zero, m', rfl, rfl⟩

theorem Fits.rename {ty ty' : Ref → Ty} (h : ∀ x, ty' (f x) = ty x) (ha : a.Fits ty) :
    (a.rename f).Fits ty' := by
  constructor
  · intro x hx
    rw [reads_rename] at hx
    obtain ⟨y, hy, rfl⟩ := List.mem_map.1 hx
    rw [h]
    exact ha.reads y hy
  · intro out cond k l r he
    cases a with
    | compute out' value =>
      cases value with
      | compare cond' k' l' r' =>
        obtain ⟨-, rfl, -⟩ : f out' = out ∧ cond' = cond ∧ _ := by
          simpa [Act.rename, Compute.rename] using he
        exact ha.cond _ _ _ _ _ rfl
      | _ => simp [Act.rename, Compute.rename] at he
    | arg out' n => cases he
    | store k' p x => cases he

end Act

namespace Chart

/-- No edge leads to the entry. -/
def EntryOnce (c : Chart) : Prop :=
  ∀ l, ¬ Graph.Edge c.succs l Graph.entry

variable {c : Chart} {l p : Label} {i j : Nat} {x y : Ref}

theorem carried?_mem (h : c.carried? p x = some y) :
    ∃ e ∈ c.incoming x, e.source = (p : Int) ∧ e.ref = y := by
  obtain ⟨e, he, rfl⟩ := Option.map_eq_some_iff.1 h
  exact ⟨e, List.mem_of_find?_eq_some he, by simpa using List.find?_some he, rfl⟩

theorem Available.home_ne_none (h : c.Available l i x) : c.home x ≠ none := by
  obtain ⟨p, hp, -⟩ := h
  rw [hp]
  exact nofun

theorem Available.mono (h : c.Available l i x) (hij : i ≤ j) : c.Available l j x := by
  obtain ⟨p, hp, hr, h | h⟩ := h
  · exact ⟨p, hp, hr, .inl ⟨h.1, fun k hk => (h.2 k hk).trans_le hij⟩⟩
  · exact ⟨p, hp, hr, .inr h⟩

theorem Available.dom (h : c.Available l i x) : ∃ p, c.home x = some p ∧ Graph.Dom c.succs p.block l := by
  obtain ⟨p, hp, -, ⟨rfl, -⟩ | ⟨-, hdom⟩⟩ := h
  · exact ⟨p, hp, .refl _⟩
  · exact ⟨p, hp, hdom⟩

/-- Every trail to the block has met the home of the value. -/
theorem Available.mem_trail (h : c.Available l i x) {q : Home} (hq : c.home x = some q)
    {vs : List Label} (ht : Graph.Trail c.succs vs l) : q.block ∈ vs := by
  obtain ⟨p, hp, hdom⟩ := h.dom
  cases hp.symm.trans hq
  exact hdom vs ht

theorem Available.of_succ (h : c.Available l (i + 1) x) :
    c.Available l i x ∨ c.home x = some ⟨l, some i⟩ := by
  obtain ⟨⟨k, place⟩, hp, hr, ⟨rfl, hlt⟩ | hdom⟩ := h
  · by_cases hi : place = some i
    · exact .inr (hi ▸ hp)
    · refine .inl ⟨_, hp, hr, .inl ⟨rfl, fun j hj => ?_⟩⟩
      have := hlt j hj
      have : j ≠ i := fun he => hi (he ▸ hj)
      omega
  · exact .inl ⟨_, hp, hr, .inr hdom⟩

/-- At the end of a block everything is available that is defined in a block which dominates it. -/
theorem available_end_iff (hc : c.Consistent) : c.Available p (c.length p) x ↔
    ∃ q, c.home x = some q ∧ Graph.Reaches c.succs q.block ∧ Graph.Dom c.succs q.block p := by
  refine exists_congr fun q => and_congr_right fun hq => and_congr_right fun _ => ⟨?_, fun hdom => ?_⟩
  · rintro (⟨heq, -⟩ | ⟨-, hdom⟩)
    · rw [heq]
      exact .refl _
    · exact hdom
  · by_cases hb : q.block = p
    · refine .inl ⟨hb, fun j hj => ?_⟩
      obtain ⟨k, place⟩ := q
      obtain rfl : place = some j := hj
      obtain ⟨a, ha, -⟩ := hc.placed k j _ hq
      exact hb ▸ (List.getElem?_eq_some_iff.1 ha).1
    · exact .inr ⟨hb, hdom⟩

/-- What is available at the head of a block is defined there, or it was available at the end of the
block from which control came. -/
theorem Available.of_edge (hc : c.Consistent) (e : Graph.Edge c.succs p l)
    (h : c.Available l 0 x) : x ∈ (c.block l).phis ∨ c.Available p (c.length p) x := by
  obtain ⟨⟨k, place⟩, hp, hr, ⟨rfl, hlt⟩ | ⟨hne, hdom⟩⟩ := h
  · cases place with
    | none => exact .inl ((hc.phi _ x).2 hp)
    | some j => exact absurd (hlt j rfl) (Nat.not_lt_zero j)
  · exact .inr ((available_end_iff hc).2 ⟨_, hp, hr, hdom.of_edge hne e⟩)

/-- What the copies of an edge read is available where control leaves. -/
theorem WellFormed.available_of_mem_moves (hw : c.WellFormed) (hp : Graph.Reaches c.succs p)
    (e : Graph.Edge c.succs p l) {m : Ref × Ref} (hm : m ∈ c.moves p l) :
    c.Available p (c.length p) m.2 := by
  obtain ⟨hx, hy, -⟩ := (hw.mem_moves hp e).1 hm
  obtain ⟨y, hy', -, ha, -⟩ := (hw.joins l (hp.step e) m.1 hx).carried hp e
  rwa [Option.some.inj (hy.symm.trans hy')]

/-- What is available behind an edge was available before it or is written by one of its copies. A value
that joins itself is not copied, but was there before. -/
theorem WellFormed.available_enter (hw : c.WellFormed) (hc : c.Consistent)
    (hp : Graph.Reaches c.succs p) (e : Graph.Edge c.succs p l) (h : c.Available l 0 x) :
    c.Available p (c.length p) x ∨ x ∈ (c.moves p l).map Prod.fst := by
  rcases h.of_edge hc e with hphi | h
  · obtain ⟨y, hy, -, ha, -⟩ := (hw.joins l (hp.step e) x hphi).carried hp e
    by_cases hyx : y = x
    · exact .inl (hyx ▸ ha)
    · exact .inr (List.mem_map.2 ⟨(x, y), (hw.mem_moves hp e).2 ⟨hphi, hy, hyx⟩, rfl⟩)
  · exact .inl h

/-- Only values at its head are available at the start of the entry. -/
theorem Available.home_of_entry (h : c.Available Graph.entry 0 x) : c.home x = some ⟨Graph.entry, none⟩ := by
  obtain ⟨⟨k, place⟩, hp, -, ⟨rfl, hlt⟩ | ⟨hne, hdom⟩⟩ := h
  · cases place with
    | none => exact hp
    | some j => exact absurd (hlt j rfl) (Nat.not_lt_zero j)
  · exact absurd (List.mem_singleton.1 (hdom _ .entry)) hne

end Chart

end Codesmith.Gen
