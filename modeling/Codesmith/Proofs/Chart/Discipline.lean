import Codesmith.Proofs.Access
import Codesmith.Proofs.Chart.Carried

/-!
# Machines that follow a chart

A machine follows a chart if it does each step of the chart by a pass: it reads only what is available
there, and what becomes available was written. Such a machine ends as the chart does. Its registers are
written before they are read, and a value at the head of a block holds what the last edge into the block
carried.
-/

namespace Codesmith.Gen.Chart

variable {τ : Type} {c : Chart} {args : Array Word} {d : Watched τ} {rel : State → τ → Prop}
  {measure : State → Nat} {s s' : State} {t t' u : τ} {k : Nat}

/-- The machine does what the chart does, step by step. Where a step of the chart takes no step of the
machine, the measure decreases. -/
structure Follows (c : Chart) (args : Array Word) (d : Watched τ) (rel : State → τ → Prop)
    (measure : State → Nat) : Prop where
  values : ∀ {s t}, rel s t → ∀ x, c.home x ≠ none → (d.regs t).read x = s.values x
  next : ∀ {s t s'} {W : Set Reg}, rel s t → c.step args s = .next s' →
    (∀ x, c.Available s.block s.place x → x ∈ W) →
    ∃ k W' t', d.Passes k W t W' t' ∧ rel s' t' ∧
      (∀ x, c.Available s'.block s'.place x → x ∈ W') ∧ (k = 0 → measure s' < measure s) ∧
      ∀ i u, 0 < i → i < k → Walks d.step i t u → d.OnEdge u ∧ c.Carries (d.regs u).read s.values
  stop : ∀ {s t o}, rel s t → (c.step args s).end? = some o →
    (d.step t).end? = some o ∧ ∀ x ∈ d.reads t, c.Available s.block s.place x

/-- What a machine owes where a block is left: it ends as the chart does, or passes to the state after the
edge. -/
def Leaves (c : Chart) (d : Watched τ) (rel : State → τ → Prop) (measure : State → Nat) (s : State) (t : τ)
    (e : Exit) (W : Set Reg) : Prop :=
  (∃ w m, c.leave s e = .done w m ∧ d.step t = .done w m ∧ ∀ x ∈ d.reads t, x ∈ W) ∨
    ∃ s' k W' t', c.leave s e = .next s' ∧ d.Passes k W t W' t' ∧ rel s' t' ∧
      (∀ x, c.Available s'.block s'.place x → x ∈ W') ∧ (k = 0 → measure s' < measure s) ∧
      ∀ i u, 0 < i → i < k → Walks d.step i t u → d.OnEdge u ∧ c.Carries (d.regs u).read s.values

/-- A machine follows a chart if it executes its lines, one by one, and leaves its blocks as the chart
does. -/
theorem follows_of_lines (hc : c.Consistent) (hw : c.WellFormed) (reached : ∀ {s t}, rel s t → c.Reached s)
    (values : ∀ {s t}, rel s t → ∀ x, c.home x ≠ none → (d.regs t).read x = s.values x)
    (line : ∀ {s t a}, rel s t → (c.block s.block).code[s.place]? = some a →
      (d.reads t = a.reads ∧ d.writes t = a.out?.toList) ∧
        match a.run args s.values s.memory with
        | .error e => d.step t = .fault e s.memory
        | .ok (v, m) => ∃ t', d.step t = .next t' ∧ rel ⟨s.block, s.place + 1, v, m⟩ t')
    (leave : ∀ {s t e} {W : Set Reg}, rel s t → s.place = c.length s.block →
      (c.block s.block).exit = some e → (∀ x, c.Available s.block s.place x → x ∈ W) →
      c.Leaves d rel measure s t e W) :
    c.Follows args d rel measure where
  values := values
  next := by
    intro s t s' W hr hs hW
    unfold step at hs
    split at hs
    · rename_i a ha
      obtain ⟨⟨hreads, hwrites⟩, hline⟩ := line hr ha
      split at hs
      · cases hs
      rename_i v m hrun
      obtain rfl := Step.next.inj hs
      rw [hrun] at hline
      obtain ⟨t', ht', hr'⟩ := hline
      refine ⟨1, _, t', .one (fun x hx => ?_) ht', hr', fun x hx => ?_, nofun, fun i u h0 hi _ => by omega⟩
      · rw [hreads] at hx
        exact hW x (hw.lines _ (reached hr).block _ a ha x hx)
      · rcases hx.of_succ with hx | hx
        · exact .inl (hW x hx)
        · obtain ⟨a', ha', hout⟩ := hc.placed _ _ x hx
          cases ha.symm.trans ha'
          refine .inr (?_ : x ∈ d.writes t)
          rw [hwrites, hout]
          exact List.mem_singleton.2 rfl
    · rename_i hnone
      have hplace := le_antisymm (reached hr).place (List.getElem?_eq_none_iff.1 hnone)
      split at hs
      · rename_i e he
        rcases leave hr hplace he hW with ⟨w, m, hdone, -⟩ | ⟨s'', k, W', t', hnext, hpass⟩
        · rw [hdone] at hs
          cases hs
        · obtain rfl := Step.next.inj (hnext.symm.trans hs)
          exact ⟨k, W', t', hpass⟩
      · cases hs
  stop := by
    intro s t o hr hs
    unfold step at hs
    split at hs
    · rename_i a ha
      obtain ⟨⟨hreads, -⟩, hline⟩ := line hr ha
      split at hs
      · rename_i e hrun
        rw [hrun] at hline
        refine ⟨by rw [hline]; exact hs, fun x hx => ?_⟩
        rw [hreads] at hx
        exact hw.lines _ (reached hr).block _ a ha x hx
      · cases hs
    · rename_i hnone
      have hplace := le_antisymm (reached hr).place (List.getElem?_eq_none_iff.1 hnone)
      split at hs
      · rename_i e he
        rcases leave (W := {x | c.Available s.block s.place x}) hr hplace he fun x hx => hx with
          ⟨w, m, hdone, hstep, hreads⟩ | ⟨s', k, W', t', hnext, -⟩
        · rw [hdone] at hs
          exact ⟨by rw [hstep]; exact hs, hreads⟩
        · rw [hnext] at hs
          cases hs
      · rename_i he
        exact absurd he (hw.ended _ (reached hr).block)

theorem Follows.simulates (h : c.Follows args d rel measure) :
    Simulates (c.step args) d.step rel measure where
  next hr hs := by
    obtain ⟨k, W', t', hpass, hr', -, hk, -⟩ := h.next (W := Set.univ) hr hs fun x _ => trivial
    exact ⟨k, t', hpass.walks, hr', hk⟩
  stop hr hs := .stop (h.stop hr hs).1

/-- Every run of the machine is guarded by what was available at its start. -/
theorem Follows.guarded (h : c.Follows args d rel measure) (hr : rel s t) {W : Set Reg}
    (hW : ∀ x, c.Available s.block s.place x → x ∈ W) (n : Nat) : d.Guarded n W t := by
  refine Watched.guarded_of_rel (fun W t μ => ∃ s, rel s t ∧ measure s = μ ∧
    ∀ x, c.Available s.block s.place x → x ∈ W) ?_ ⟨s, hr, rfl, hW⟩ n
  rintro W t _ ⟨s, hr, rfl, hW⟩
  cases hs : (c.step args s).end? with
  | some o =>
    obtain ⟨hstop, hreads⟩ := h.stop hr hs
    refine .inl ⟨fun x hx => hW x (hreads x hx), fun t' ht => ?_⟩
    rw [ht] at hstop
    cases hstop
  | none =>
    obtain ⟨s', hs'⟩ := Step.next_of_end?_eq_none hs
    obtain ⟨k, W', t', hpass, hr', hW', hk, -⟩ := h.next hr hs' hW
    exact .inr ⟨k, W', t', _, hpass, ⟨s', hr', rfl, hW'⟩, hk⟩

/-- The machine has come from the first state to the second, and the chart has come so far too: the
machine was at every state that the chart has passed. -/
structure Accompanies (c : Chart) (args : Array Word) (d : Watched τ) (rel : State → τ → Prop)
    (s : State) (t : τ) (n : Nat) (s' : State) (k : Nat) (t' : τ) : Prop where
  walks : Walks (c.step args) n s s'
  related : rel s' t'
  reads : ∀ x ∈ d.reads t', c.Available s'.block s'.place x
  passed : ∀ j v, j ≤ n → Walks (c.step args) j s v → ∃ i w, i ≤ k ∧ Walks d.step i t w ∧ rel v w

theorem Accompanies.refl (hr : rel s t) (hreads : ∀ x ∈ d.reads t, c.Available s.block s.place x) :
    c.Accompanies args d rel s t 0 s 0 t where
  walks := .refl s
  related := hr
  reads := hreads
  passed j v hj hv := by
    obtain rfl := Nat.le_zero.1 hj
    cases hv
    exact ⟨0, t, le_rfl, .refl t, hr⟩

theorem Accompanies.cons {s'' : State} {j n : Nat} (hr : rel s t) (hs : c.step args s = .next s')
    (hk : Walks d.step k t t') (h : c.Accompanies args d rel s' t' n s'' j u) :
    c.Accompanies args d rel s t (n + 1) s'' (k + j) u where
  walks := .next hs h.walks
  related := h.related
  reads := h.reads
  passed i v hi hv := by
    cases hv with
    | refl => exact ⟨0, t, Nat.zero_le _, .refl t, hr⟩
    | next hs' hv =>
      obtain rfl := Step.next.inj (hs.symm.trans hs')
      obtain ⟨i, w, hle, hw, hr'⟩ := h.passed _ v (Nat.le_of_succ_le_succ hi) hv
      exact ⟨k + i, w, Nat.add_le_add_left hle k, hk.trans hw, hr'⟩

/-- The machine is on an edge after a state of the chart. -/
def Departs (c : Chart) (args : Array Word) (d : Watched τ) (s : State) (u : τ) : Prop :=
  d.OnEdge u ∧ ∃ n s', Walks (c.step args) n s s' ∧ c.Carries (d.regs u).read s'.values

/-- Where the machine is not on an edge, it is at a state of the chart. -/
theorem Follows.accompanies (h : c.Follows args d rel measure) (hr : rel s t) (hu : Walks d.step k t u) :
    c.Departs args d s u ∨ ∃ n s', c.Accompanies args d rel s t n s' k u := by
  -- Either steps of the machine are used up, or the measure decreases.
  induction k using Nat.strong_induction_on generalizing s t with
  | _ k ihk =>
    induction hm : measure s using Nat.strong_induction_on generalizing s t with
    | _ μ ihμ =>
      subst hm
      cases hs : (c.step args s).end? with
      | some o =>
        obtain ⟨hstop, hreads⟩ := h.stop hr hs
        cases hu with
        | refl => exact .inr ⟨0, s, .refl hr hreads⟩
        | next ht _ =>
          rw [ht] at hstop
          cases hstop
      | none =>
        obtain ⟨s', hs'⟩ := Step.next_of_end?_eq_none hs
        obtain ⟨j, W', t', hpass, hr', -, hmeasure, hbetween⟩ :=
          h.next (W := {x | c.Available s.block s.place x}) hr hs' fun x hx => hx
        by_cases hlt : k < j
        · cases hu with
          | refl =>
            cases hpass with
            | refl => exact absurd hlt (lt_irrefl 0)
            | next hreads _ _ => exact .inr ⟨0, s, .refl hr hreads⟩
          | next ht hu =>
            obtain ⟨hedge, hcarries⟩ := hbetween _ u (Nat.succ_pos _) hlt (.next ht hu)
            exact .inl ⟨hedge, 0, s, .refl s, hcarries⟩
        · have hle := Nat.le_of_not_lt hlt
          have hu' := hpass.walks.sub hu hle
          have hrest : c.Departs args d s' u ∨
              ∃ n s'', c.Accompanies args d rel s' t' n s'' (k - j) u := by
            by_cases hj : j = 0
            · subst hj
              exact ihμ _ (hmeasure rfl) hr' hu' rfl
            · exact ihk (k - j) (by omega) hr' hu'
          refine hrest.imp (fun ⟨hedge, n, s'', hw, hcarries⟩ => ⟨hedge, n + 1, s'', .next hs' hw, hcarries⟩)
            fun ⟨n, s'', ha⟩ => ⟨n + 1, s'', ?_⟩
          have := ha.cons hr hs' hpass.walks
          rwa [Nat.add_sub_cancel' hle] at this

theorem Follows.carries (h : c.Follows args d rel measure) (hr : rel s t) (hu : Walks d.step k t u) :
    ∃ n s', Walks (c.step args) n s s' ∧ c.Carries (d.regs u).read s'.values := by
  rcases h.accompanies hr hu with ⟨-, hcarries⟩ | ⟨n, s', ha⟩
  · exact hcarries
  · exact ⟨n, s', ha.walks, fun x hx => ⟨x, rfl, h.values ha.related x hx⟩⟩

/-- The registers of a machine are used as the verifiers promise. The run starts with the registers in
`given` in place. -/
structure Disciplined (c : Chart) (args : Array Word) (d : Watched τ) (rel : State → τ → Prop)
    (given : Set Reg) (s : State) (t : τ) : Prop where
  /-- What is read was there at the start or was written before. -/
  written : ∀ k u, Walks d.step k t u → ∀ x ∈ d.reads u,
    x ∈ given ∨ ∃ j w, j < k ∧ Walks d.step j t w ∧ x ∈ d.writes w
  /-- A value at the head of a block that is read in a block holds what was carried by the edge through
  which control entered the block of the value last. -/
  carried : ∀ k u, Walks d.step k t u → ¬ d.OnEdge u → ∀ x ∈ d.reads u, ∀ b,
    c.home x = some ⟨b, none⟩ → b ≠ Graph.entry →
    ∃ n s' j v y i w, Walks (c.step args) n s s' ∧ rel s' u ∧ c.LastEntered args s n b j v ∧
      c.carried? v.block x = some y ∧ i ≤ k ∧ Walks d.step i t w ∧ rel v w ∧
      (d.regs u).read x = (d.regs w).read y

theorem Follows.disciplined (h : c.Follows args d rel measure) (hc : c.Consistent)
    (hw : c.WellFormed) (hs : c.Reached s) (hentry : s.block = Graph.entry) (hr : rel s t)
    {given : Set Reg} (hgiven : ∀ x, c.Available s.block s.place x → x ∈ given) :
    c.Disciplined args d rel given s t where
  written k u hu x hx := (h.guarded hr hgiven (k + 1)).written hu hx
  carried k u hu hedge x hx b hb hne := by
    obtain ⟨n, s', ha⟩ := (h.accompanies hr hu).resolve_left fun hdep => hedge hdep.1
    obtain ⟨j, v, y, hlast, hy, hhome, hv⟩ :=
      exists_lastEntered hc hw hs hentry ha.walks hb hne (ha.reads x hx)
    obtain ⟨i, w, hle, hwalk, hr'⟩ := ha.passed j v hlast.lt.le hlast.walks
    refine ⟨n, s', j, v, y, i, w, ha.walks, ha.related, hlast, hy, hle, hwalk, hr', ?_⟩
    have hx' : c.home x ≠ none := by
      rw [hb]
      exact nofun
    rw [h.values ha.related x hx', hv, h.values hr' y hhome]

end Codesmith.Gen.Chart
