import Codesmith.Proofs.Chart.Available
import Codesmith.Proofs.Execution

/-!
# Charts that run alike

One chart mimics another if its lines and exits are those of the other with the values renamed. Values
that are available in the other then keep their words under their new names, although several values may
share one name. So both charts end alike.
-/

namespace Codesmith.Gen.Chart

/-- The second chart is the first with its values renamed. A line does not overwrite what is still
available, and an edge brings the values at the head of its target along. -/
structure Mimics (c c' : Chart) (f : Ref → Ref) : Prop where
  code : ∀ l, Graph.Reaches c.succs l → (c'.block l).code = (c.block l).code.map (Act.rename f)
  exit : ∀ l, Graph.Reaches c.succs l → (c'.block l).exit = (c.block l).exit.map (Exit.rename f)
  apart : ∀ l i a x y, Graph.Reaches c.succs l → (c.block l).code[i]? = some a → a.out? = some y →
    c.Available l (i + 1) x → f x = f y → x = y
  enter : ∀ p l v v', Graph.Reaches c.succs p → Graph.Edge c.succs p l →
    (∀ x, c.Available p (c.length p) x → v' (f x) = v x) →
    ∀ x, c.Available l 0 x → c'.enter p l v' (f x) = c.enter p l v x

/-- The charts are at the same place, and what is available has the same words. -/
structure Alike (c : Chart) (f : Ref → Ref) (s s' : State) : Prop where
  reached : Graph.Reaches c.succs s.block
  block : s'.block = s.block
  place : s'.place = s.place
  inside : s.place ≤ c.length s.block
  memory : s'.memory = s.memory
  values : ∀ x, c.Available s.block s.place x → s'.values (f x) = s.values x

variable {c c' : Chart} {f : Ref → Ref} {s s' : State} (args : Array Word)

section

variable (h : c.Mimics c' f) (hw : c.WellFormed) (hc : c.Consistent)
include h hw hc

/-- A line has the same effect on both charts. -/
theorem Mimics.line (hs : c.Alike f s s') {a : Act} (ha : (c.block s.block).code[s.place]? = some a) :
    (∃ e, c.step args s = .fault e s.memory ∧ c'.step args s' = .fault e s.memory) ∨
      ∃ t t', c.step args s = .next t ∧ c'.step args s' = .next t' ∧ c.Alike f t t' := by
  obtain ⟨l, i, v, m⟩ := s
  obtain ⟨l', i', v', m'⟩ := s'
  obtain ⟨hl, hblock, hplace, hin, hmemory, hv⟩ := hs
  dsimp only at hl hblock hplace hin hmemory hv ha ⊢
  subst hblock hplace hmemory
  have ha' : (c'.block l').code[i']? = some (a.rename f) := by
    rw [h.code l' hl, List.getElem?_map, ha]
    rfl
  have hreads : ∀ x ∈ a.reads, v' (f x) = v x := fun x hx => hv x (hw.lines l' hl i' a ha x hx)
  simp only [step, ha, ha']
  rcases Act.run_rename args m' hreads with ⟨e, he, he'⟩ | ⟨w, m, he, he'⟩
  · simp only [he, he']
    exact .inl ⟨e, rfl, rfl⟩
  simp only [he, he']
  refine .inr ⟨_, _, rfl, rfl, hl, rfl, rfl, ?_, rfl, fun x hx => ?_⟩
  · exact (List.getElem?_eq_some_iff.1 ha).1
  · change (a.rename f).put v' w (f x) = a.put v w x
    by_cases hx' : a.out? = some x
    · rw [Act.put_of_out hx', Act.put_of_out (by rw [Act.out?_rename, hx']; rfl)]
    rw [Act.put_of_ne hx', Act.put_of_ne]
    · rcases hx.of_succ with hx | hhome
      · exact hv x hx
      · obtain ⟨b, hb, hbx⟩ := hc.placed l' i' x hhome
        exact absurd (Option.some.inj (ha.symm.trans hb) ▸ hbx) hx'
    · rw [Act.out?_rename]
      intro he
      obtain ⟨y, hy, hyx⟩ := Option.map_eq_some_iff.1 he
      exact hx' (h.apart l' i' a x y hl ha hy hx hyx.symm ▸ hy)

/-- A block is left in the same way by both charts. -/
theorem Mimics.leave (hs : c.Alike f s s') (hplace : s.place = c.length s.block) {e : Exit}
    (he : (c.block s.block).exit = some e) :
    (∃ w m, c.leave s e = .done w m ∧ c'.leave s' (e.rename f) = .done w m) ∨
      ∃ t t', c.leave s e = .next t ∧ c'.leave s' (e.rename f) = .next t' ∧ c.Alike f t t' := by
  obtain ⟨l, i, v, m⟩ := s
  obtain ⟨l', i', v', m'⟩ := s'
  obtain ⟨hl, hblock, hplace', hin, hmemory, hv⟩ := hs
  dsimp only at hl hblock hplace' hin hmemory hv he hplace
  subst hblock hplace' hmemory hplace
  have hreads : ∀ x ∈ e.reads, v' (f x) = v x := fun x hx => hv x (hw.exits l' hl e he x hx)
  have hgo : ∀ t ∈ e.targets,
      c.Alike f (c.go ⟨l', c.length l', v, m'⟩ t) (c'.go ⟨l', c.length l', v', m'⟩ t) := by
    intro t ht
    obtain ⟨-, hedge⟩ := hc.edge he ht
    exact ⟨hl.step hedge, rfl, rfl, Nat.zero_le _, rfl, h.enter l' t.toNat v v' hl hedge hv⟩
  cases e with
  | jump t => exact .inr ⟨_, _, rfl, rfl, hgo t (List.mem_singleton.2 rfl)⟩
  | branch x yes no =>
    have hx : v' (f x) = v x := hreads x (List.mem_singleton.2 rfl)
    simp only [Exit.rename, Chart.leave, hx]
    refine .inr ⟨_, _, rfl, rfl, hgo _ ?_⟩
    simp only [Exit.targets]
    split <;> split <;> simp_all
  | ret x =>
    cases x with
    | none => exact .inl ⟨_, _, rfl, rfl⟩
    | some x =>
      refine .inl ⟨v x, m', rfl, ?_⟩
      have hx : v' (f x) = v x := hreads x (List.mem_singleton.2 rfl)
      rw [← hx]
      rfl

/-- One step of both charts. -/
theorem Mimics.step (hs : c.Alike f s s') :
    (∃ o, (c.step args s).end? = some o ∧ (c'.step args s').end? = some o) ∨
      ∃ t t', c.step args s = .next t ∧ c'.step args s' = .next t' ∧ c.Alike f t t' := by
  cases ha : (c.block s.block).code[s.place]? with
  | some a =>
    rcases h.line args hw hc hs ha with ⟨e, he, he'⟩ | hnext
    · exact .inl ⟨.fault e s.memory, by rw [he]; rfl, by rw [he']; rfl⟩
    · exact .inr hnext
  | none =>
    have hplace := le_antisymm hs.inside (List.getElem?_eq_none_iff.1 ha)
    obtain ⟨e, he⟩ := Option.ne_none_iff_exists'.1 (hw.ended s.block hs.reached)
    have ha' : (c'.block s'.block).code[s'.place]? = none := by
      rw [hs.block, hs.place, h.code _ hs.reached, List.getElem?_map, ha]
      rfl
    have he' : (c'.block s'.block).exit = some (e.rename f) := by
      rw [hs.block, h.exit _ hs.reached, he]
      rfl
    simp only [Chart.step, ha, ha', he, he']
    rcases h.leave hw hc hs hplace he with ⟨w, m, hd, hd'⟩ | hnext
    · exact .inl ⟨.done w m, by rw [hd]; rfl, by rw [hd']; rfl⟩
    · exact .inr hnext

theorem Mimics.simulates : Simulates (c.step args) (c'.step args) (c.Alike f) fun _ => 0 where
  next := by
    intro s s' t hs ht
    rcases h.step args hw hc hs with ⟨o, ho, -⟩ | ⟨u, u', hu, hu', halike⟩
    · rw [ht] at ho
      cases ho
    · obtain rfl := Step.next.inj (ht.symm.trans hu)
      exact ⟨1, u', .one hu', halike, nofun⟩
  stop := by
    intro s s' o hs ho
    rcases h.step args hw hc hs with ⟨o', ho', hend⟩ | ⟨u, u', hu, -⟩
    · cases ho.symm.trans ho'
      exact .stop hend
    · rw [hu] at ho
      cases ho

end

theorem alike_start (m : Memory) : c.Alike f (start m) (start m) :=
  ⟨Graph.reaches_entry, rfl, rfl, Nat.zero_le _, rfl, fun _ _ => rfl⟩

theorem Mimics.ends_iff (h : c.Mimics c' f) (hw : c.WellFormed) (hc : c.Consistent) (m : Memory)
    {o : Outcome Word} :
    Ends (c.step args) (start m) o ↔ Ends (c'.step args) (start m) o :=
  (h.simulates args hw hc).ends_iff (alike_start m)

end Codesmith.Gen.Chart
