import Codesmith.Proofs.Direct.Node

/-!
# Rounds of a loop one by one

The interpreter gives all loops the same number of rounds, and more rounds do not change what came of a
program. So a part *brings* a result if some number of rounds is enough for it, and brings no other.

`Heads` and `Lap` follow a loop that starts with a test round by round: in which state its test is begun for
the `k`th time, and in which state its body is. A loop comes to its end once its test fails.
-/

namespace Codesmith.Direct

variable {fuel fuel' : Nat} {cells cells' : Cells} {m m' : Memory} {r r' : Result}
variable {out v : Nat} {c : Compute} {x : Source} {ns : List Node} {way : Way}

/-! ## Enough rounds -/

/-- The variables hold the same words as before, those in `V` apart. -/
def Agree (V : Nat → Prop) (cells cells' : Cells) : Prop :=
  ∀ v, ¬ V v → cells' v = cells v

/-- Where control goes on, the variables hold the same words as before, those in `V` apart. -/
def Result.Keeps (V : Nat → Prop) (cells : Cells) : Result → Prop
  | go _ cells' _ => Agree V cells cells'
  | ended _ => True

@[inherit_doc Result.Keeps]
def Round.Keeps (V : Nat → Prop) (cells : Cells) : Round → Prop
  | .again cells' _ => Agree V cells cells'
  | .over r => r.Keeps V cells

/-- The second part does whatever the first one does, and changes no variables but those in `V`. -/
def Covers (V : Nat → Prop) (p q : Part) : Prop :=
  ∀ cells m r, p cells m = some r → q cells m = some r ∧ r.Keeps V cells

section Covers

variable {V : Nat → Prop}
variable {test test' body body' : Part}

theorem Result.Keeps.after (h : r.Keeps V cells') (h' : Agree V cells cells') : r.Keeps V cells := by
  cases r with
  | go way cells1 m1 => exact fun v hv => (h v hv).trans (h' v hv)
  | ended o => trivial

theorem Round.Keeps.after {d : Round} (h : d.Keeps V cells') (h' : Agree V cells cells') : d.Keeps V cells := by
  match d, h with
  | .again _ _, h => exact fun v hv => (h v hv).trans (h' v hv)
  | .over _, h => exact Result.Keeps.after h h'

theorem agree_update {out : Nat} (h : V out) (x : Word) : Agree V cells (Function.update cells out x) :=
  fun v hv => Function.update_of_ne (fun heq : v = out => hv (heq ▸ h)) _ _

theorem rounds_covers {round round' : Cells → Memory → Option Round}
    (h : ∀ cells m d, round cells m = some d → round' cells m = some d ∧ d.Keeps V cells) {n n' : Nat}
    (hn : n ≤ n') : Covers V (rounds round n) (rounds round' n') := by
  induction n generalizing n' with
  | zero => nofun
  | succ n ih =>
    obtain ⟨n', rfl⟩ := Nat.exists_eq_succ_of_ne_zero (Nat.ne_zero_of_lt hn)
    intro cells m r hr
    simp only [rounds, Option.bind_eq_bind, Option.bind_eq_some_iff] at hr ⊢
    obtain ⟨d, hd, hr⟩ := hr
    obtain ⟨hd', hkeeps⟩ := h cells m d hd
    match d, hr, hkeeps with
    | .again cells1 m1, hr, hkeeps =>
      obtain ⟨hr', hkeeps'⟩ := ih (Nat.le_of_succ_le_succ hn) cells1 m1 r hr
      exact ⟨⟨_, hd', hr'⟩, hkeeps'.after hkeeps⟩
    | .over _, rfl, hkeeps => exact ⟨⟨_, hd', rfl⟩, hkeeps⟩

theorem lastPart_covers {p q : Part} (h : Covers V p q) (cells : Cells) (m : Memory) (d : Round)
    (hd : lastPart p cells m = some d) : lastPart q cells m = some d ∧ d.Keeps V cells := by
  simp only [lastPart, Option.bind_eq_bind, Option.bind_eq_some_iff] at hd ⊢
  obtain ⟨r, hr, hd⟩ := hd
  obtain ⟨hr', hkeeps⟩ := h cells m r hr
  refine ⟨⟨r, hr', hd⟩, ?_⟩
  split at hd <;> cases hd <;> exact hkeeps

theorem loopRound_covers {step step' : Part} (c : Option Nat) (htest : Covers V test test')
    (hstep : Covers V step step') (hbody : Covers V body body') (cells : Cells) (m : Memory) (d : Round)
    (hd : loopRound test c step body cells m = some d) :
    loopRound test' c step' body' cells m = some d ∧ d.Keeps V cells := by
  simp only [loopRound, Option.bind_eq_bind, Option.bind_eq_some_iff] at hd ⊢
  obtain ⟨r, hr, hd⟩ := hd
  obtain ⟨hr', hkeeps⟩ := htest cells m r hr
  split at hd
  · rename_i cells1 m1
    by_cases hc : holds c cells1 = true
    · simp only [hc, if_true, Option.bind_eq_some_iff] at hd
      obtain ⟨r1, hr1, hd⟩ := hd
      obtain ⟨hr1', hkeeps1⟩ := hbody cells1 m1 r1 hr1
      have hkeeps1 := hkeeps1.after hkeeps
      split at hd
      · cases hd
        exact ⟨⟨_, hr', by simp [hc, hr1']⟩, hkeeps1⟩
      · obtain ⟨hd', hkeeps2⟩ := lastPart_covers hstep _ _ d hd
        refine ⟨⟨_, hr', ?_⟩, hkeeps2.after hkeeps1⟩
        simpa only [hc, if_true, hr1', Option.bind_some] using hd'
      · cases hd
        exact ⟨⟨_, hr', by simp [hc, hr1']⟩, trivial⟩
    · rw [if_neg hc] at hd
      cases hd
      exact ⟨⟨_, hr', if_neg hc⟩, hkeeps⟩
  · cases hd
    exact ⟨⟨_, hr', by split <;> simp_all⟩, hkeeps⟩

theorem doRound_covers (c : Option Nat) (hbody : Covers V body body') (htest : Covers V test test')
    (cells : Cells) (m : Memory) (d : Round) (hd : doRound body test c cells m = some d) :
    doRound body' test' c cells m = some d ∧ d.Keeps V cells := by
  simp only [doRound, Option.bind_eq_bind, Option.bind_eq_some_iff] at hd ⊢
  obtain ⟨r, hr, hd⟩ := hd
  obtain ⟨hr', hkeeps⟩ := hbody cells m r hr
  split at hd
  · cases hd
    exact ⟨⟨_, hr', rfl⟩, hkeeps⟩
  · simp only [Option.bind_eq_some_iff] at hd
    obtain ⟨r1, hr1, hd⟩ := hd
    obtain ⟨hr1', hkeeps1⟩ := htest _ _ r1 hr1
    have hkeeps1 := hkeeps1.after hkeeps
    refine ⟨⟨_, hr', by simpa only [hr1', Option.bind_some] using hd⟩, ?_⟩
    split at hd
    · split at hd <;> cases hd <;> exact hkeeps1
    · cases hd
      exact hkeeps1
  · cases hd
    exact ⟨⟨_, hr', rfl⟩, trivial⟩

mutual

theorem exec_covers (h : fuel ≤ fuel') (n : Node) (hmade : ∀ v ∈ n.made, V v) (hassigned : ∀ v ∈ n.assigned, V v) :
    Covers V (n.exec fuel) (n.exec fuel') := by
  intro cells m r hr
  cases n with
  | choose c yes no =>
    simp only [Node.made, Node.assigned, List.forall_mem_append] at hmade hassigned
    rw [Node.exec] at hr ⊢
    split at hr
    · rw [if_pos ‹_›]
      exact execAll_covers h yes hmade.1 hassigned.1 _ _ _ hr
    · rw [if_neg ‹_›]
      exact execAll_covers h no hmade.2 hassigned.2 _ _ _ hr
  | loop test c stepped step body =>
    simp only [Node.made, Node.assigned, List.forall_mem_append] at hmade hassigned
    rw [Node.exec] at hr ⊢
    exact rounds_covers (loopRound_covers c (execAll_covers h test hmade.1.1 hassigned.1.1)
      (execAll_covers h step hmade.1.2 hassigned.1.2) (execAll_covers h body hmade.2 hassigned.2)) h _ _ _ hr
  | doLoop body test c =>
    simp only [Node.made, Node.assigned, List.forall_mem_append] at hmade hassigned
    rw [Node.exec] at hr ⊢
    exact rounds_covers (doRound_covers c (execAll_covers h body hmade.1 hassigned.1)
      (execAll_covers h test hmade.2 hassigned.2)) h _ _ _ hr
  | take out x =>
    cases hr
    exact ⟨rfl, agree_update (hmade out (List.mem_singleton_self out)) _⟩
  | assign out x =>
    cases hr
    exact ⟨rfl, agree_update (hassigned out (List.mem_singleton_self out)) _⟩
  | make out c p x =>
    refine ⟨hr, ?_⟩
    rw [Node.exec] at hr
    split at hr <;> cases hr
    · exact agree_update (hmade out (List.mem_singleton_self out)) _
    · trivial
  | store kind p x =>
    refine ⟨hr, ?_⟩
    rw [Node.exec] at hr
    split at hr <;> cases hr
    · exact fun _ _ => rfl
    · trivial
  | leave | next =>
    cases hr
    exact ⟨rfl, fun _ _ => rfl⟩
  | ret x =>
    cases hr
    exact ⟨rfl, trivial⟩

/-- More rounds do not change what came of statements, and statements leave alone what they neither make nor
assign to. -/
theorem execAll_covers (h : fuel ≤ fuel') (ns : List Node) (hmade : ∀ v ∈ madeAll ns, V v)
    (hassigned : ∀ v ∈ assignedAll ns, V v) : Covers V (execAll fuel ns) (execAll fuel' ns) := by
  intro cells m r hr
  cases ns with
  | nil =>
    cases hr
    exact ⟨rfl, fun _ _ => rfl⟩
  | cons n ns =>
    simp only [madeAll, assignedAll, List.forall_mem_append] at hmade hassigned
    simp only [execAll, Option.bind_eq_some_iff] at hr ⊢
    obtain ⟨r1, hn, hr⟩ := hr
    obtain ⟨hn', hkeeps⟩ := exec_covers h n hmade.1 hassigned.1 _ _ _ hn
    match r1, hn', hkeeps, hr with
    | .go .on cells1 m1, hn', hkeeps, hr =>
      obtain ⟨hr', hkeeps'⟩ := execAll_covers h ns hmade.2 hassigned.2 _ _ _ hr
      exact ⟨⟨_, hn', hr'⟩, hkeeps'.after hkeeps⟩
    | .go .leave _ _, hn', hkeeps, rfl | .go .next _ _, hn', hkeeps, rfl | .ended _, hn', hkeeps, rfl =>
      exact ⟨⟨_, hn', rfl⟩, hkeeps⟩

end

end Covers

theorem execAll_mono (h : fuel ≤ fuel') (ns : List Node) (hr : execAll fuel ns cells m = some r) :
    execAll fuel' ns cells m = some r :=
  (execAll_covers (V := fun _ => True) h ns (fun _ _ => trivial) (fun _ _ => trivial) _ _ _ hr).1

theorem execAll_append (fuel : Nat) (ns ms : List Node) (cells : Cells) (m : Memory) :
    execAll fuel (ns ++ ms) cells m = (execAll fuel ns cells m).bind fun r => r.andThen (execAll fuel ms) := by
  induction ns generalizing cells m with
  | nil => rfl
  | cons n ns ih =>
    rw [List.cons_append, execAll, execAll, Option.bind_assoc]
    congr 1
    funext r
    match r with
    | .go .on cells1 m1 => exact ih cells1 m1
    | .go .leave _ _ | .go .next _ _ | .ended _ => rfl

/-- Statements come to a result, given enough rounds. -/
def Brings (ns : List Node) (cells : Cells) (m : Memory) (r : Result) : Prop :=
  ∃ fuel, execAll fuel ns cells m = some r

namespace Brings

variable {ns ms : List Node}

theorem unique (h : Brings ns cells m r) (h' : Brings ns cells m r') : r = r' := by
  obtain ⟨fuel, h⟩ := h
  obtain ⟨fuel', h'⟩ := h'
  have hr := execAll_mono (Nat.le_max_left fuel fuel') ns h
  have hr' := execAll_mono (Nat.le_max_right fuel fuel') ns h'
  exact Option.some.inj (hr.symm.trans hr')

theorem append (h : Brings ns cells m (.go .on cells' m')) (h' : Brings ms cells' m' r) :
    Brings (ns ++ ms) cells m r := by
  obtain ⟨fuel, h⟩ := h
  obtain ⟨fuel', h'⟩ := h'
  refine ⟨max fuel fuel', ?_⟩
  rw [execAll_append, execAll_mono (Nat.le_max_left fuel fuel') ns h]
  exact execAll_mono (Nat.le_max_right fuel fuel') ms h'

theorem of_append (h : Brings (ns ++ ms) cells m r) (h' : Brings ns cells m (.go .on cells' m')) :
    Brings ms cells' m' r := by
  obtain ⟨fuel, h⟩ := h
  obtain ⟨fuel', h'⟩ := h'
  refine ⟨max fuel fuel', ?_⟩
  have hr := execAll_mono (Nat.le_max_left fuel fuel') _ h
  rwa [execAll_append, execAll_mono (Nat.le_max_right fuel fuel') ns h'] at hr

theorem append_iff (h : Brings ns cells m (.go .on cells' m')) :
    Brings (ns ++ ms) cells m r ↔ Brings ms cells' m' r :=
  ⟨fun h' => h'.of_append h, fun h' => h.append h'⟩

end Brings

theorem brings_take (out : Nat) (x : Source) (cells : Cells) (m : Memory) :
    Brings [.take out x] cells m (.go .on (Function.update cells out (x.value cells)) m) :=
  ⟨0, rfl⟩

theorem brings_assign (v : Nat) (x : Source) (cells : Cells) (m : Memory) :
    Brings [.assign v x] cells m (.go .on (Function.update cells v (x.value cells)) m) :=
  ⟨0, rfl⟩

theorem brings_make {w : Word} (h : c.value (pair (cells v) (x.value cells)) m = .ok w) :
    Brings [.make out c v x] cells m (.go .on (Function.update cells out w) m) :=
  ⟨0, by simp [execAll, Node.exec, h, Result.andThen]⟩

/-- Control gets past a computation only if it yields a word. -/
theorem Brings.of_make (h : Brings ([.make out c v x] ++ ns) cells m (.go way cells' m')) :
    ∃ w, c.value (pair (cells v) (x.value cells)) m = .ok w := by
  obtain ⟨fuel, h⟩ := h
  cases hc : c.value (pair (cells v) (x.value cells)) m with
  | ok w => exact ⟨w, rfl⟩
  | error f => simp [execAll, Node.exec, hc, Result.andThen] at h

theorem Brings.leaves (h : Brings ns cells m (.go way cells' m')) (hmade : v ∉ madeAll ns)
    (hassigned : v ∉ assignedAll ns) : cells' v = cells v := by
  obtain ⟨fuel, h⟩ := h
  exact (execAll_covers (V := (· ≠ v)) le_rfl ns (fun u hu heq => hmade (heq ▸ hu))
    (fun u hu heq => hassigned (heq ▸ hu)) _ _ _ h).2 v (not_not.2 rfl)

/-! ## Rounds -/

/-- A loop that starts its rounds with a test. -/
structure Cycle where
  test : List Node
  condition : Option Nat
  step : List Node
  body : List Node

namespace Cycle

variable {L : Cycle} {k : Nat}
variable {cells1 cells2 : Cells} {m1 m2 : Memory} {j : Nat}

/-- The loop as a statement. -/
def node (L : Cycle) (stepped : Bool) : Node :=
  .loop L.test L.condition stepped L.step L.body

def round (L : Cycle) (fuel : Nat) : Cells → Memory → Option Round :=
  loopRound (execAll fuel L.test) L.condition (execAll fuel L.step) (execAll fuel L.body)

/-- Where the loop begins its `k`th round, if it is entered with these variables and this memory. -/
inductive Heads (L : Cycle) (cells : Cells) (m : Memory) : Nat → Cells → Memory → Prop
  | first : Heads L cells m 0 cells m
  | next {k : Nat} {cells₁ cells₂ cells₃ cells₄ : Cells} {m₁ m₂ m₃ m₄ : Memory} {way : Way} :
    Heads L cells m k cells₁ m₁ → Brings L.test cells₁ m₁ (.go .on cells₂ m₂) →
    holds L.condition cells₂ = true → Brings L.body cells₂ m₂ (.go way cells₃ m₃) → way ≠ .leave →
    Brings L.step cells₃ m₃ (.go .on cells₄ m₄) → Heads L cells m (k + 1) cells₄ m₄

/-- Where the loop begins its body for the `k`th time. -/
def Lap (L : Cycle) (cells : Cells) (m : Memory) (k : Nat) (cells' : Cells) (m' : Memory) : Prop :=
  ∃ cells₁ m₁, L.Heads cells m k cells₁ m₁ ∧ Brings L.test cells₁ m₁ (.go .on cells' m') ∧
    holds L.condition cells' = true

theorem Heads.unique (h : L.Heads cells m k cells1 m1) (h' : L.Heads cells m k cells2 m2) :
    cells1 = cells2 ∧ m1 = m2 := by
  induction h generalizing cells2 m2 with
  | first =>
    cases h'
    exact ⟨rfl, rfl⟩
  | next _ htest _ hbody _ hstep ih =>
    cases h' with
    | next hh htest' _ hbody' _ hstep' =>
      obtain ⟨rfl, rfl⟩ := ih hh
      cases htest.unique htest'
      cases hbody.unique hbody'
      cases hstep.unique hstep'
      exact ⟨rfl, rfl⟩

theorem Lap.unique (h : L.Lap cells m k cells1 m1) (h' : L.Lap cells m k cells2 m2) :
    cells1 = cells2 ∧ m1 = m2 := by
  obtain ⟨_, _, hh, htest, -⟩ := h
  obtain ⟨_, _, hh', htest', -⟩ := h'
  obtain ⟨rfl, rfl⟩ := hh.unique hh'
  cases htest.unique htest'
  exact ⟨rfl, rfl⟩

theorem Heads.earlier (h : L.Heads cells m k cells' m') (hj : j < k) :
    ∃ cells1 m1, L.Lap cells m j cells1 m1 := by
  induction h with
  | first => exact absurd hj (Nat.not_lt_zero j)
  | next hheads htest hc _ _ _ ih =>
    obtain hlt | rfl := Nat.lt_succ_iff_lt_or_eq.1 hj
    · exact ih hlt
    · exact ⟨_, _, _, _, hheads, htest, hc⟩

/-- The body is not begun for the `k`th time without having been begun before. -/
theorem Lap.earlier (h : L.Lap cells m k cells' m') (hj : j ≤ k) :
    ∃ cells1 m1, L.Lap cells m j cells1 m1 := by
  obtain hlt | rfl := Nat.lt_or_eq_of_le hj
  · obtain ⟨_, _, hheads, -⟩ := h
    exact hheads.earlier hlt
  · exact ⟨_, _, h⟩

section

variable (htest : Brings L.test cells m (.go .on cells1 m1))
include htest

/-- A round that goes on to the next one, once there are enough rounds for its parts. -/
theorem round_again {cells3 : Cells} {m3 : Memory} {way : Way} (hc : holds L.condition cells1 = true)
    (hbody : Brings L.body cells1 m1 (.go way cells2 m2)) (hway : way ≠ .leave)
    (hstep : Brings L.step cells2 m2 (.go .on cells3 m3)) :
    ∃ n, ∀ fuel, n ≤ fuel → L.round fuel cells m = some (.again cells3 m3) := by
  obtain ⟨n1, htest⟩ := htest
  obtain ⟨n2, hbody⟩ := hbody
  obtain ⟨n3, hstep⟩ := hstep
  refine ⟨max n1 (max n2 n3), fun fuel hfuel => ?_⟩
  have htest := execAll_mono (le_trans (by simp) hfuel) _ htest
  have hbody := execAll_mono (le_trans (by simp) hfuel) _ hbody
  have hstep := execAll_mono (le_trans (by simp) hfuel) _ hstep
  cases way with
  | leave => exact absurd rfl hway
  | on | next => simp [round, loopRound, htest, hc, hbody, lastPart, hstep]

theorem round_over (hc : holds L.condition cells1 = false) :
    ∃ n, ∀ fuel, n ≤ fuel → L.round fuel cells m = some (.over (.go .on cells1 m1)) := by
  obtain ⟨n, htest⟩ := htest
  refine ⟨n, fun fuel hfuel => ?_⟩
  have htest := execAll_mono hfuel _ htest
  simp [round, loopRound, htest, hc]

end

theorem Heads.rounds (h : L.Heads cells m k cells' m') :
    ∃ n, ∀ fuel, n ≤ fuel → ∀ j, rounds (L.round fuel) (j + k) cells m = rounds (L.round fuel) j cells' m' := by
  induction h with
  | first => exact ⟨0, fun _ _ _ => rfl⟩
  | @next k _ _ _ _ _ _ _ _ _ _ htest hc hbody hway hstep ih =>
    obtain ⟨n, ih⟩ := ih
    obtain ⟨n', hagain⟩ := round_again htest hc hbody hway hstep
    refine ⟨max n n', fun fuel hfuel j => ?_⟩
    rw [show j + (k + 1) = j + 1 + k by omega, ih fuel (le_trans (by simp) hfuel), Direct.rounds,
      hagain fuel (le_trans (by simp) hfuel)]
    rfl

/-- The loop comes to its end when its test fails. -/
theorem Heads.ends (h : L.Heads cells m k cells1 m1) (htest : Brings L.test cells1 m1 (.go .on cells' m'))
    (hc : holds L.condition cells' = false) (stepped : Bool) :
    Brings [L.node stepped] cells m (.go .on cells' m') := by
  obtain ⟨n, hrounds⟩ := h.rounds
  obtain ⟨n', hover⟩ := round_over htest hc
  refine ⟨max n n' + 1 + k, ?_⟩
  have hloop : Direct.rounds (L.round (max n n' + 1 + k)) (max n n' + 1 + k) cells m = some (.go .on cells' m') := by
    rw [hrounds _ (by omega), Direct.rounds, hover _ (by omega)]
    rfl
  rw [execAll, node, Node.exec]
  exact Option.bind_eq_some_iff.2 ⟨_, hloop, rfl⟩

/-- The loop runs its body `n` times and comes to its end then. -/
structure Runs (L : Cycle) (cells : Cells) (m : Memory) (n : Nat) : Prop where
  count : ∀ k, (∃ cells' m', L.Lap cells m k cells' m') ↔ k < n
  once : ∀ k cells₁ m₁ cells₂ m₂, L.Lap cells m k cells₁ m₁ → L.Lap cells m k cells₂ m₂ →
    cells₁ = cells₂ ∧ m₁ = m₂
  ends : ∀ stepped, ∃ cells' m', Brings [L.node stepped] cells m (.go .on cells' m')

/-! ## Loops with a cursor -/

/-- A loop that compares a variable `i` with another one, `e`, and advances it after each round. -/
structure Advances (L : Cycle) (i e : Nat) (goes : Word → Word → Bool) (next : Word → Word) : Prop where
  test : ∀ cells m, ∃ cells', Brings L.test cells m (.go .on cells' m) ∧ cells' i = cells i ∧
    cells' e = cells e ∧ holds L.condition cells' = goes (cells i) (cells e)
  step : ∀ cells m, ∃ cells', Brings L.step cells m (.go .on cells' m) ∧ cells' i = next (cells i) ∧
    cells' e = cells e
  body : ∀ cells m way cells' m', Brings L.body cells m (.go way cells' m') →
    cells' i = cells i ∧ cells' e = cells e

/-- Each execution of the body comes to its end, and control goes on from there to the next round. -/
def Completes (L : Cycle) (cells : Cells) (m : Memory) : Prop :=
  ∀ k cells₁ m₁, L.Lap cells m k cells₁ m₁ →
    ∃ way cells₂ m₂, way ≠ .leave ∧ Brings L.body cells₁ m₁ (.go way cells₂ m₂)

namespace Advances

variable {i e n : Nat} {goes : Word → Word → Bool} {next : Word → Word}

section

variable (h : L.Advances i e goes next)
include h

theorem heads (hk : L.Heads cells m k cells' m') : cells' i = next^[k] (cells i) ∧ cells' e = cells e := by
  induction hk with
  | first => exact ⟨rfl, rfl⟩
  | next _ htest _ hbody _ hstep ih =>
    obtain ⟨_, htest', hi1, he1, -⟩ := h.test _ _
    cases htest.unique htest'
    obtain ⟨hi2, he2⟩ := h.body _ _ _ _ _ hbody
    obtain ⟨_, hstep', hi3, he3⟩ := h.step _ _
    cases hstep.unique hstep'
    rw [hi3, hi2, hi1, ih.1, he3, he2, he1, ih.2, Function.iterate_succ_apply']
    exact ⟨rfl, rfl⟩

theorem lap (hk : L.Lap cells m k cells' m') :
    cells' i = next^[k] (cells i) ∧ cells' e = cells e ∧ goes (next^[k] (cells i)) (cells e) = true := by
  obtain ⟨cells1, m1, hheads, htest, hc⟩ := hk
  obtain ⟨hi, he⟩ := h.heads hheads
  obtain ⟨_, htest', hi', he', hgoes⟩ := h.test cells1 m1
  cases htest.unique htest'
  rw [hi', he', ← hc, hgoes, hi, he]
  exact ⟨rfl, rfl, rfl⟩

/-- If the body stores nothing, it always finds the memory with which the loop was entered. -/
theorem memory_eq (hbody : ∀ cells m way cells' m', Brings L.body cells m (.go way cells' m') → m' = m)
    (hk : L.Lap cells m k cells' m') : m' = m := by
  obtain ⟨cells1, m1, hheads, htest, -⟩ := hk
  obtain ⟨_, htest', -⟩ := h.test cells1 m1
  cases htest.unique htest'
  clear htest htest'
  induction hheads with
  | first => rfl
  | next _ htest _ hrun _ hstep ih =>
    obtain ⟨_, htest', -⟩ := h.test _ _
    cases htest.unique htest'
    obtain ⟨_, hstep', -⟩ := h.step _ _
    cases hstep.unique hstep'
    exact (hbody _ _ _ _ _ hrun).trans ih

/-- What is begun goes on to its body as long as the comparison holds. -/
theorem exists_lap (hk : L.Heads cells m k cells' m') (hgoes : goes (next^[k] (cells i)) (cells e) = true) :
    ∃ cells1 m1, L.Lap cells m k cells1 m1 := by
  obtain ⟨hi, he⟩ := h.heads hk
  obtain ⟨cells1, htest, -, -, hc⟩ := h.test cells' m'
  exact ⟨cells1, m', cells', m', hk, htest, by rw [hc, hi, he, hgoes]⟩

theorem exists_heads (hbody : L.Completes cells m)
    (hgoes : ∀ j < n, goes (next^[j] (cells i)) (cells e) = true) (hk : k ≤ n) :
    ∃ cells' m', L.Heads cells m k cells' m' := by
  induction k with
  | zero => exact ⟨cells, m, .first⟩
  | succ k ih =>
    obtain ⟨cells1, m1, hheads⟩ := ih (Nat.le_of_succ_le hk)
    obtain ⟨cells2, m2, hlap⟩ := h.exists_lap hheads (hgoes k hk)
    obtain ⟨way, cells3, m3, hway, hrun⟩ := hbody k cells2 m2 hlap
    obtain ⟨cells4, hstep, -⟩ := h.step cells3 m3
    obtain ⟨_, _, hheads', htest, hc⟩ := hlap
    exact ⟨cells4, m3, .next hheads' htest hc hrun hway hstep⟩

/-- The body is not begun anymore once the comparison fails. -/
theorem lt_of_lap (hends : goes (next^[n] (cells i)) (cells e) = false) (hk : L.Lap cells m k cells' m') :
    k < n := by
  by_contra hge
  obtain ⟨_, _, hlast⟩ := hk.earlier (not_lt.1 hge)
  obtain ⟨-, -, hgoes⟩ := h.lap hlast
  rw [hends] at hgoes
  cases hgoes

/-- The body is run as often as the comparison holds, if each of its executions completes. -/
theorem runs (hbody : L.Completes cells m) (hgoes : ∀ j < n, goes (next^[j] (cells i)) (cells e) = true)
    (hends : goes (next^[n] (cells i)) (cells e) = false) : L.Runs cells m n := by
  obtain ⟨cells1, m1, hheads⟩ := h.exists_heads hbody hgoes le_rfl
  obtain ⟨cells2, htest, -, -, hc⟩ := h.test cells1 m1
  obtain ⟨hi, he⟩ := h.heads hheads
  rw [hi, he, hends] at hc
  refine ⟨fun k => ⟨fun ⟨_, _, hlap⟩ => h.lt_of_lap hends hlap, fun hk => ?_⟩, fun _ _ _ _ _ => Lap.unique,
    fun stepped => ⟨cells2, m1, hheads.ends htest hc stepped⟩⟩
  obtain ⟨_, _, hheads'⟩ := h.exists_heads hbody hgoes hk.le
  exact h.exists_lap hheads' (hgoes k hk)

end

end Advances

end Cycle

end Codesmith.Direct
