import Codesmith.Proofs.Describe.Scopes

/-!
# Conditionals

The parts of a conditional start where the variables are as before it, and they join after it. A variable
that no part assigns to comes to the join in the value that it had before, so it needs no value of its own
there.
-/

namespace Codesmith.Describe

open Gen (Sheet)
open Direct

variable {s t t' t1 t2 : Sketch} {A B : Sheet} {V U : Nat → Prop} {L : List Label} {b j : Label}
  {flows : List EdgeFlow} {nodes : List Node} {k k' k'' : Conditional} {position : Position} {v : Nat} {y : Var}
variable {n : Nat} {r : Sketch} {g : Gen.Generator} {W : Nat → Prop} {x : Var} {e : Bool}

/-- The variables of the first sketch have the same values in the second. -/
def Restored (s t : Sketch) : Prop :=
  ∀ (v : Nat) y, s.vars[v]? = some y → ∃ y', t.vars[v]? = some y' ∧ y'.ref = y.ref

/-- Parts of a conditional have been described that assign to the variables in `U`. The flows list the
edges to the join; they bring every variable that is not in `V` as it was before. -/
structure Branching (V U : Nat → Prop) (L : List Label) (j : Label) (flows : List EdgeFlow) (s : Sketch)
    (A : Sheet) (t : Sketch) (B : Sheet) : Prop where
  within : Within V V L s A t B
  left : B.Left
  join : Awaits t B j s.vars.size flows
  kept : ∀ (v : Nat) y, s.vars[v]? = some y → ¬ V v → ∀ f ∈ flows, f.refs[v]? = some y.ref
  live : flows ≠ [] → s.dead = false
  closed : ∀ (v : Nat) x, s.vars.size ≤ v → t.vars[v]? = some x → t.isClosed x = true
  framed : Framed U s t

theorem flow_refs (hy : s.vars[v]? = some y) (hv : v < n) : (s.flow n).refs[v]? = some y.ref := by
  rw [show (s.flow n).refs = s.snapshot n from rfl, Sketch.snapshot_getElem?, hy, if_pos hv]
  rfl

theorem mem_leaving {f : EdgeFlow} (h : f ∈ s.leaving n) : s.dead = false ∧ f = s.flow n := by
  rw [Sketch.leaving] at h
  split at h
  · cases h
  · rename_i hdead
    exact ⟨by simpa using hdead, List.mem_singleton.1 h⟩

theorem leavePart_run (herr : t.error = none) : leavePart k position t =
    .ok ({ k with flows := k.flows ++ t.leaving k.size }, t.goTo k.join position) := by
  have hbind : leavePart k position t = (if t.error.isSome || t.dead then pure k else do
      terminate (.jump k.join) position
      return { k with flows := k.flows ++ [t.flow k.size] } : Edit Conditional) t := rfl
  rw [hbind, herr, Sketch.leaving, Sketch.goTo]
  by_cases hdead : t.dead = true
  · rw [if_pos (by simp [hdead]), if_pos hdead, if_pos hdead, List.append_nil]
    rfl
  · rw [if_neg (by simp [hdead]), if_neg hdead, if_neg hdead]
    rfl

theorem enterPart_ok {u : Unit} (h : enterPart k b t = .ok (u, t')) :
    ∃ g, t.gen.setBlock b = .ok g ∧ t' = { t with gen := g, dead := k.dead } := by
  obtain ⟨_, t1, hset, hmodify⟩ := bind_ok h
  obtain ⟨g, hg, rfl⟩ := setBlock_ok hset
  cases hmodify
  exact ⟨g, hg, rfl⟩

theorem goTo_eq (t : Sketch) (b : BlockId) (position : Position) :
    t.goTo b position = { t with gen := (t.goTo b position).gen } := by
  rw [Sketch.goTo]
  split <;> rfl

/-- One more part is entered; after it has been described, control goes from its end to the join. -/
theorem Branching.part (nodes : List Node) {u : Unit} (h : Branching V U L j flows s A t B) (L' : List Label)
    (position : Position)
    (hb : Awaits t B b s.vars.size (s.leaving s.vars.size)) (hbL : b ∈ L) (hbj : b ≠ j)
    (hjL : j ∈ L) (hsame : Restored s t) (hdead : k.dead = s.dead)
    (henter : enterPart k b t = .ok (u, t1)) (hV : ∀ v ∈ assignedAll nodes, V v)
    (hL : Remain b L L') :
    ∃ B1, Drawn t1 B1 ∧ AllReady t1 B1 ∧ B.Extends B1 ∧
      ∀ t2 B2, Draws nodes t1 B1 t2 B2 → Closes t1 t2 → ∃ B' q,
        Branching V (fun v => U v ∨ v ∈ assignedAll nodes) L' j (flows ++ t2.leaving s.vars.size) s A
          (t2.goTo j position) B' ∧
        (s.dead = false → LaidAll B' s.around nodes (some (b, 0)) q) ∧ JumpsTo B' q j ∧ B2.Extends B' ∧
        (∀ x m gs, x ∈ L → x ≠ b → x ≠ j → Awaits t B x m gs → Awaits (t2.goTo j position) B' x m gs) ∧
        ∀ v, t.vars.size ≤ v → v < t2.vars.size → v ∈ madeAll nodes := by
  obtain ⟨g, hset, rfl⟩ := enterPart_ok henter
  -- All variables in scope come to the part as they were before the conditional.
  have hcommon : s.dead = false → ∀ (v : Nat) y, t.vars[v]? = some y → t.isClosed y = false →
      B.Common b v y.ref := by
    intro hlive v y hy hopen
    have hv : v < s.vars.size := by
      by_contra hge
      rw [h.closed v y (not_lt.1 hge) hy] at hopen
      cases hopen
    obtain ⟨y', hy', href⟩ := hsame v _ (Array.getElem?_eq_getElem hv)
    cases hy.symm.trans hy'
    have hleaving : s.leaving s.vars.size = [s.flow s.vars.size] := by
      rw [Sketch.leaving, hlive]
      rfl
    refine hb.common (by simp [hleaving]) hy hopen fun f hf => ?_
    rw [(mem_leaving hf).2, href]
    exact flow_refs (Array.getElem?_eq_getElem hv) hv
  obtain ⟨B1, hwithin, hentered, hready, hgrows⟩ := h.within.into s.dead h.left hb hbL hset
    (by cases hs : s.dead <;> simp [Sketch.leaving, hs]) (fun h => h) hcommon hL
  rw [hdead]
  refine ⟨B1, hwithin.drawn, hready, hgrows.ext, fun t2 B2 hdraws hclosed => ?_⟩
  have hprog := hdraws.progress
  have hwithin2 : Within V V L' s A t2 B2 := by
    refine hwithin.part hprog (fun v _ hv => hV v hv) fun v y hy _ hv => ?_
    exact ⟨fun hmem => hv (hV v hmem), hsame v y hy⟩
  have hcarry : t.Carries { t with gen := g, dead := s.dead } :=
    fun _ y hy => ⟨y, hy, rfl, fun hopen => hopen⟩
  have hawaits : ∀ x m gs, x ∈ L → x ≠ b → Awaits t B x m gs → Awaits t2 B2 x m gs := by
    intro x m gs hx hxb hw
    exact hwithin.awaits_part hprog (h.within.own x hx)
      (hw.mono hgrows hwithin.drawn.shows.sound hcarry id hxb id)
  obtain ⟨B', hwithin', hleft, hjoin, hjump, hother, hgrows'⟩ := hwithin2.goTo position
    (hprog.ready.mono fun _ _ => trivial) (hawaits j _ _ hjL hbj.symm h.join) (h.within.own j hjL)
  have hvar : ∀ (v : Nat) y, s.vars[v]? = some y → ¬ V v → ∃ y', t2.vars[v]? = some y' ∧
      y'.ref = y.ref := by
    intro v y hy hv
    obtain ⟨y1, hy1, href⟩ := hsame v y hy
    obtain ⟨y2, hy2, -⟩ := hprog.evolves.vars v y1 hy1
    exact ⟨y2, hy2, (hprog.evolves.refs v y1 y2 (fun hmem => hv (hV v hmem)) hy1 hy2).trans href⟩
  refine ⟨B', _, ⟨hwithin', hleft, hjoin, fun v y hy hv f hf => ?_, fun hne => ?_, fun v x hv hx => ?_, ?_⟩,
    fun hlive => ?_, hjump, hgrows'.ext, fun x m gs hx hxb hxj hw => hother x m gs hxj (hawaits x m gs hx hxb hw),
    hdraws.made⟩
  · rcases List.mem_append.1 hf with hf | hf
    · exact h.kept v y hy hv f hf
    · obtain ⟨y', hy', href⟩ := hvar v y hy hv
      rw [(mem_leaving hf).2, ← href]
      exact flow_refs hy' (Array.getElem?_eq_some_iff.1 hy).1
  · by_cases hnil : flows = []
    · rw [hnil, List.nil_append] at hne
      obtain ⟨f, hf⟩ := List.exists_mem_of_ne_nil _ hne
      cases hs : s.dead with
      | false => rfl
      | true =>
        have := hprog.evolves.quiet hs
        rw [(mem_leaving hf).1] at this
        cases this
    · exact h.live hnil
  · rw [goTo_eq] at hx ⊢
    by_cases hlt : v < t.vars.size
    · have hy := Array.getElem?_eq_getElem hlt
      obtain ⟨x', hx', -, hc⟩ := hprog.evolves.var hwithin.drawn hy
      cases hx.symm.trans hx'
      exact hc.trans (h.closed v _ hv hy)
    · exact hclosed v x (not_lt.1 hlt) hx
  · rw [goTo_eq]
    exact h.framed.grow hprog.evolves.frames
  · have hlaid := hdraws.laid
    rw [hentered.point_eq, show Sketch.around { t with gen := g, dead := s.dead } = s.around from
      h.within.feeds.around] at hlaid
    rw [show (if ({ t with gen := g, dead := s.dead } : Sketch).dead then none else some (b, 0)) =
      some (b, 0) from if_neg (by simp [hlive])] at hlaid
    exact hlaid.mono hgrows'.ext

/-! ## The branch -/

theorem condition_ok {op : String} {c : Option Value} {r : Ref} (hc : ∀ w, c = some w → Refers s w)
    (h : (condition op c position).run s = .ok (.ok r, t)) :
    s = t ∧ ∃ w x, c = some w ∧ s.vars[w.cell]? = some x ∧ s.isClosed x = false ∧ r = x.ref ∧
      x.ty = .bool := by
  obtain ⟨r', t', huse, h⟩ := Attempt.bind_ok h
  obtain ⟨rfl, w, x, rfl, hx, rfl⟩ := use_refers hc huse
  obtain ⟨hbool, h⟩ := Attempt.check_ok h
  obtain ⟨rfl, rfl⟩ := Attempt.pure_ok h
  refine ⟨rfl, w, x, rfl, hx.var, hx.inScope, rfl, ?_⟩
  rw [← hx.ty, ← Ty.isBool_iff]
  simpa using hbool

theorem Ready.newBlock {p : Nat → Prop} (hr : Ready s A p) : Ready { s with gen := g } A.newBlock p :=
  ⟨hr.exit, hr.dead, hr.env⟩

/-- Blocks have been made for a construct, and no edge goes to them yet. -/
structure Prepared (W V : Nat → Prop) (L : List Label) (s : Sketch) (A : Sheet) (g : Gen.Generator)
    (B : Sheet) : Prop where
  within : Within W V L s A { s with gen := g } B
  ready : Ready { s with gen := g } B fun _ => True
  chart : B.chart.current = A.chart.current ∧ B.items = A.items
  waits : ∀ z ∈ L, Awaits { s with gen := g } B z s.vars.size []

theorem prepared_start (hd : Drawn s A) (hr : AllReady s A) : Prepared W V [] s A s.gen A :=
  ⟨within_start hd, hr, ⟨rfl, rfl⟩, nofun⟩

theorem Prepared.newBlock {name : String} {i : BlockId} (h : Prepared W V L s A g B)
    (hnew : Describe.newBlock name { s with gen := g } = .ok (i, t)) :
    i = B.chart.size ∧ ∃ g', t = { s with gen := g' } ∧ Prepared W V (B.chart.size :: L) s A g' B.newBlock := by
  obtain ⟨rfl, ⟨g', rfl⟩, hw⟩ := h.within.newBlock hnew
  refine ⟨rfl, g', rfl, hw, h.ready.newBlock, h.chart, fun z hz => ?_⟩
  rcases List.mem_cons.1 hz with rfl | hz
  · exact awaits_new (s := { s with gen := g }) h.within.drawn le_rfl
  · exact (h.waits z hz).newBlock h.within.drawn.shows.sound

/-- The sketch that has left its block. -/
def Sketch.exits (s : Sketch) (e : Gen.Exit) (position : Position) : Sketch :=
  { s with gen := (s.gen.setPosition (some position)).terminate e }

/-- The current block is left with a branch to two blocks of the construct. -/
theorem Within.branch {yes no : Label} {m : Nat} (position : Position) (h : Within W V L s A t B)
    (hr : AllReady t B) (hx : t.vars[v]? = some x) (hopen : t.isClosed x = false)
    (hbool : x.ty = .bool) (hyes : Awaits t B yes n []) (hno : Awaits t B no m []) (hyesL : yes ∈ L)
    (hnoL : no ∈ L) : ∃ B', Within W V L s A (t.exits (.branch x.ref yes no) position) B' ∧ B'.Left ∧
      Awaits (t.exits (.branch x.ref yes no) position) B' yes n (t.leaving n) ∧
        Awaits (t.exits (.branch x.ref yes no) position) B' no m (t.leaving m) ∧
          EndsAt B' B.chart.current B.top (.branch x.ref yes no) ∧
            B.Grows 0 (fun _ => False) (· = B.chart.current) (fun _ => False)
              (fun y => y = yes ∨ y = no) B' := by
  have hmem : ∀ y : Label, (y : Int) ∈ (Gen.Exit.branch x.ref yes no).targets ↔ y = yes ∨ y = no := by
    intro y
    rw [Gen.Exit.targets]
    split
    · rename_i heq
      simp [Int.ofNat_inj.1 heq]
    · simp
  have hlive : t.dead = false → ∀ r ∈ (Gen.Exit.branch x.ref yes no).reads,
      B.Held B.chart.current B.top r := by
    intro hlive r hr'
    rw [List.mem_singleton.1 hr']
    exact (hr.env hlive v x trivial hx hopen).held
  have hfits : (Gen.Exit.branch x.ref yes no).Fits B.chart.sig.result B.chart.size B.chart.ty :=
    ⟨(h.drawn.ty v x hx).1.2.trans hbool,
      ⟨Int.natCast_nonneg _, Int.ofNat_lt.2 hyes.pending.lt⟩,
      Int.natCast_nonneg _, Int.ofNat_lt.2 hno.pending.lt⟩
  have hwithin : Within W V L s A (t.exits (.branch x.ref yes no) position) _ :=
    h.terminate hr hfits hlive fun y hy => by
      rcases (hmem y).1 hy with rfl | rfl
      · exact ⟨hyes.pending, h.own _ hyesL⟩
      · exact ⟨hno.pending, h.own _ hnoL⟩
  have hc := B.chart.exits_terminate (.branch x.ref yes no)
  have hsound := hwithin.drawn.shows.sound
  have hgrows := (hr.grows_leave hc).mono (fun _ _ hv => hv) (fun _ _ ht => .inl ht)
    (fun _ _ hj => hj) fun y _ hy => (hmem y).1 hy.2
  exact ⟨_, hwithin, Sheet.left_leave hc,
    hyes.leave h.drawn (hr.mono fun _ _ => trivial) hc hsound ((hmem yes).2 (.inl rfl)),
    hno.leave h.drawn (hr.mono fun _ _ => trivial) hc hsound ((hmem no).2 (.inr rfl)),
    endsAt_leave B _, hgrows⟩

theorem leaving_gen (s : Sketch) (g : Gen.Generator) (n : Nat) (hg : g.current = s.gen.current) :
    Sketch.leaving { s with gen := g } n = s.leaving n := by
  rw [Sketch.leaving, Sketch.leaving, Sketch.flow, Sketch.flow, ← hg]
  rfl

/-- The branch of a conditional was drawn. Without a second part control may go to the join at once. -/
structure Parted (V : Nat → Prop) (e : Bool) (L : List Label) (y j n : Label) (k : Conditional)
    (x : Var) (s : Sketch) (A : Sheet) (t : Sketch) (B : Sheet) : Prop where
  plan : k = ⟨s.vars.size, s.dead, s.snapshot s.vars.size, y, n, j,
    if e then [] else s.leaving s.vars.size⟩
  own : ∀ z, z ∈ L ↔ z = y ∨ z = n ∨ z = j
  apart : y ≠ j ∧ y ≠ n
  other : if e then n ≠ j else n = j
  branching : Branching V (fun _ => False) L j k.flows s A t B
  yes : Awaits t B y s.vars.size (s.leaving s.vars.size)
  no : Awaits t B n s.vars.size (s.leaving s.vars.size)
  restored : Restored s t
  size : t.vars.size = s.vars.size
  ended : EndsAt B A.chart.current A.top (.branch x.ref y n)

/-- The branch is drawn after the blocks of a conditional have been made. -/
theorem parted {y n : Label} (position : Position) (h : Prepared V V L s A g B) (hd : Drawn s A)
    (hx : s.vars[v]? = some x) (hopen : s.isClosed x = false) (hbool : x.ty = .bool)
    (hL : ∀ z, z ∈ L ↔ z = y ∨ z = n ∨ z = j) (hapart : y ≠ j ∧ y ≠ n) (hother : if e then n ≠ j else n = j) :
    ∃ B', Parted V e L y j n ⟨s.vars.size, s.dead, s.snapshot s.vars.size, y, n, j,
        if e then [] else s.leaving s.vars.size⟩ x s A
      { Sketch.exits { s with gen := g } (.branch x.ref y n) position with
        frames := .empty :: s.frames } B' := by
  have hyes : y ∈ L := (hL y).2 (.inl rfl)
  have hno : n ∈ L := (hL n).2 (.inr (.inl rfl))
  have hjoin := h.waits j ((hL j).2 (.inr (.inr rfl)))
  obtain ⟨B', hwithin, hleft, hyes', hno', hend, hgrows⟩ := h.within.branch position h.ready hx hopen hbool
    (h.waits y hyes) (h.waits n hno) hyes hno
  have hcurrent : g.current = s.gen.current :=
    h.within.drawn.shows.current.trans ((congrArg _ h.chart.1).trans hd.shows.current.symm)
  rw [leaving_gen s g _ hcurrent] at hyes' hno'
  have hsound := hwithin.drawn.shows.sound
  set t := Sketch.exits { s with gen := g } (.branch x.ref y n) position
  have hframes : t.Alike { t with frames := .empty :: s.frames } :=
    ⟨rfl, rfl, rfl, rfl, rfl, rfl, rfl, rfl, fun _ y hy => ⟨y, hy, rfl, rfl⟩⟩
  have hjoin' : Awaits t B' j s.vars.size (if e then [] else s.leaving s.vars.size) := by
    cases e with
    | false => exact (show n = j from hother) ▸ hno'
    | true =>
      exact hjoin.mono hgrows hsound (alike_gen _ _).carries hjoin.ne id fun hj =>
        hj.elim hapart.1.symm (fun h => (show n ≠ j from hother) h.symm)
  refine ⟨B', rfl, hL, hapart, hother, ⟨hwithin.alter hframes rfl rfl hwithin.quiet fun v y hy =>
    (hwithin.drawn.ty v y hy).1, hleft, hjoin'.alter hsound hframes.carries, fun v y hy _ f hf => ?_,
    fun hne => ?_, fun v z hv hz => absurd (Array.getElem?_eq_some_iff.1 hz).1 (not_lt.2 hv),
    framed_push rfl⟩, hyes'.alter hsound hframes.carries, hno'.alter hsound hframes.carries,
    fun v y hy => ⟨y, hy, rfl⟩, rfl, ?_⟩
  · cases e with
    | true => exact absurd hf List.not_mem_nil
    | false =>
      rw [(mem_leaving hf).2]
      exact flow_refs hy (Array.getElem?_eq_some_iff.1 hy).1
  · cases e with
    | true => exact absurd rfl hne
    | false =>
      obtain ⟨f, hf⟩ := List.exists_mem_of_ne_nil _ hne
      exact (mem_leaving hf).1
  · rw [Sheet.top, Sheet.last, h.chart.1, h.chart.2] at hend
    exact hend

theorem startIf_ok {c : Option Value} (V : Nat → Prop) (h : startIf c e position s = .ok (some k, t))
    (herr : t.error = none) (hd : Drawn s A) (hr : AllReady s A)
    (hc : ∀ w, c = some w → Refers s w) :
    ∃ w x L y j n B, c = some w ∧ s.vars[w.cell]? = some x ∧ s.isClosed x = false ∧
      Parted V e L y j n k x s A t B := by
  obtain ⟨r, t0, hcond, h2⟩ := Attempt.bind_ok (ready_ok (attempt_ok h herr))
  obtain ⟨rfl, w, x, rfl, hx, hopen, rfl, hbool⟩ := condition_ok hc hcond
  replace h2 := Attempt.get_ok h2
  obtain ⟨y, t1, hnew1, h3⟩ := Attempt.bind_ok h2
  obtain ⟨j, t2, hnew2, h4⟩ := Attempt.bind_ok h3
  replace hnew1 := Attempt.lift_ok hnew1
  replace hnew2 := Attempt.lift_ok hnew2
  have hstart : Prepared V V [] s A s.gen A := prepared_start hd hr
  obtain ⟨rfl, g1, rfl, hp1⟩ := hstart.newBlock hnew1
  obtain ⟨rfl, g2, rfl, hp2⟩ := hp1.newBlock hnew2
  have hne : A.chart.size ≠ A.newBlock.chart.size := (Nat.lt_succ_self _).ne
  cases e with
  | false =>
    obtain ⟨B, hB⟩ := parted (e := false) position hp2 hd hx hopen hbool
      (fun z => by simp only [List.mem_cons, List.not_mem_nil, or_false]; tauto) ⟨hne, hne⟩ rfl
    cases h4
    exact ⟨w, x, _, _, _, _, B, rfl, hx, hopen, hB⟩
  | true =>
    obtain ⟨n, t3, hnew3, h5⟩ := Attempt.bind_ok h4
    replace hnew3 := Attempt.lift_ok hnew3
    obtain ⟨rfl, g3, rfl, hp3⟩ := hp2.newBlock hnew3
    have hne2 : A.newBlock.chart.size < A.newBlock.newBlock.chart.size := Nat.lt_succ_self _
    obtain ⟨B, hB⟩ := parted (e := true) position hp3 hd hx hopen hbool
      (fun z => by simp only [List.mem_cons, List.not_mem_nil, or_false]; tauto)
      ⟨hne, ((Nat.lt_succ_self _).trans hne2).ne⟩ hne2.ne'
    cases h5
    exact ⟨w, x, _, _, _, _, B, rfl, hx, hopen, hB⟩

/-! ## The join -/

theorem restore_run (refs : Array Ref) (s : Sketch) :
    restore refs s = .ok ((), s.restoreFrom 0 refs.toList) :=
  rfl

theorem alike_restoreFrom (s : Sketch) (refs : Array Ref) : s.Alike (s.restoreFrom 0 refs.toList) := by
  rw [Sketch.restoreFrom_eq]
  exact ⟨rfl, rfl, rfl, rfl, rfl, rfl, rfl, rfl, fun v y hy => ⟨_, restored_vars refs hy, rfl, rfl⟩⟩

/-- The first variables have the values of another sketch. -/
theorem restored_var (hy : t.vars[v]? = some y) : (t.restoreFrom 0 (r.snapshot n).toList).vars[v]? =
      some { y with ref := if v < n then (r.vars[v]?.map Var.ref).getD y.ref else y.ref } := by
  rw [restored_vars _ hy, Sketch.snapshot_getElem?]
  split <;> rfl

theorem hasTy_restored (ht : ∀ (v : Nat) y, t.vars[v]? = some y → B.HasTy y.ref y.ty)
    (hr : ∀ (v : Nat) y, r.vars[v]? = some y → B.HasTy y.ref y.ty) (hrt : r.Carries t)
    (hy : (t.restoreFrom 0 (r.snapshot n).toList).vars[v]? = some y) : B.HasTy y.ref y.ty := by
  obtain ⟨y', hy', -⟩ := (alike_restoreFrom t _).back (restored_size _ _ _) hy
  cases (restored_var hy').symm.trans hy
  show B.HasTy (if v < n then (r.vars[v]?.map Var.ref).getD y'.ref else y'.ref) y'.ty
  cases hz : r.vars[v]? with
  | none =>
    rw [Option.map_none, Option.getD_none, ite_self]
    exact ht v y' hy'
  | some z =>
    obtain ⟨y1, hy1, hty, -⟩ := hrt v z hz
    obtain rfl := Option.some.inj (hy1.symm.trans hy')
    rw [Option.map_some, Option.getD_some]
    split
    · exact hty ▸ hr v z hz
    · exact ht v y1 hy'

/-- The variables of a sketch that a construct began with have the values again that they had then. -/
theorem Within.restore (h : Within W V L s A t B) :
    Within W V L s A (t.restoreFrom 0 (s.snapshot s.vars.size).toList) B ∧
      Restored s (t.restoreFrom 0 (s.snapshot s.vars.size).toList) := by
  refine ⟨h.alter (alike_restoreFrom t _) (restored_size _ _ _) (by rw [Sketch.restoreFrom_eq])
    (by rw [Sketch.restoreFrom_eq]; exact h.quiet) fun v y hy => ?_, fun v y hy => ?_⟩
  · exact hasTy_restored (fun v y hy => (h.drawn.ty v y hy).1)
      (fun v y hy => h.grows.hasTy (h.start.ty v y hy).1) (h.drifts.carries h.start) hy
  · obtain ⟨y', hy', -⟩ := h.drifts.vars v y hy
    refine ⟨_, restored_var hy', ?_⟩
    show (if v < s.vars.size then (s.vars[v]?.map Var.ref).getD y'.ref else y'.ref) = y.ref
    rw [if_pos (Array.getElem?_eq_some_iff.1 hy).1, hy]
    rfl

theorem endIf_ok {u : Unit} (h : Branching V U L j flows s A t B) (hUV : ∀ v, U v ↔ V v)
    (hj : j ∈ L) (hL : ∀ y ∈ L, y = j) (hk : k.before = s.snapshot s.vars.size)
    (hsize : k.size = s.vars.size) (hjoin : k.join = j) (hflows : k.flows = flows)
    (hrun : endIf k t = .ok (u, t')) :
    ∃ A', Progress V s A t' A' ∧ AtHead A' (point t' A') j ∧ B.Extends A' ∧ t'.vars.size = t.vars.size := by
  obtain ⟨a, t1, hpop, hrun⟩ := bind_ok hrun
  obtain ⟨hassigned, ht1, hframes⟩ := popFrame_ok h.framed hpop
  obtain ⟨_, t2, hrestore, hmerge⟩ := bind_ok hrun
  rw [restore_run] at hrestore
  cases hrestore
  rw [hk, hsize, hjoin, hflows] at hmerge
  have halike1 : t.Alike t1 := by
    rw [ht1]
    exact ⟨rfl, rfl, rfl, rfl, rfl, rfl, rfl, rfl, fun _ y hy => ⟨y, hy, rfl, rfl⟩⟩
  have hwithin1 : Within V V L s A t1 B := h.within.alter halike1 (by rw [ht1]) (by rw [ht1])
    (by rw [ht1]; exact h.within.quiet) (by rw [ht1]; exact fun v y hy => (h.within.drawn.ty v y hy).1)
  obtain ⟨hwithin2, hrestored⟩ := hwithin1.restore
  set t2 := t1.restoreFrom 0 (s.snapshot s.vars.size).toList
  have halike2 : t1.Alike t2 := alike_restoreFrom t1 _
  have hsound := h.within.drawn.shows.sound
  have hawaits : Awaits t2 B j s.vars.size flows :=
    (h.join.alter hsound halike1.carries).alter hsound halike2.carries
  have hsame : ∀ a', some a = some a' → ∀ (v : Nat) y, v < s.vars.size → t2.vars[v]? = some y →
      a'.contains v = false → ∃ r, ∀ f ∈ flows, f.refs[v]? = some r := by
    intro a' ha v y hv _ hnot
    cases ha
    refine ⟨_, fun f hf => h.kept v _ (Array.getElem?_eq_getElem hv) (fun hV => ?_) f hf⟩
    rw [(hassigned v).2 ((hUV v).2 hV)] at hnot
    cases hnot
  obtain ⟨A', hwithin', hentered, hmerged⟩ := merge_ok hwithin2 h.left hawaits hj h.live
    hsame (remain_nil hL) hmerge
  have hsize2 : t2.vars.size = t.vars.size := (restored_size _ _ _).trans (by rw [ht1])
  refine ⟨A', ⟨⟨hwithin'.drawn, hwithin'.grows, fun y hy => ?_, ⟨hwithin'.drifts, fun v y y' hv hy hy' => ?_,
    ?_, hwithin'.quiet⟩, hwithin'.feeds⟩, hentered.ready fun hlive v y _ hy hopen => ?_⟩,
    hentered.atHead, hmerged.grows.ext, hmerged.size.trans hsize2⟩
  · exact (hwithin'.idle y hy).resolve_right List.not_mem_nil
  · obtain ⟨y2, hy2, href⟩ := hrestored v y hy
    rw [← href]
    refine hmerged.same v y2 y' hy2 hy' fun f hf _ => ?_
    rw [href]
    exact h.kept v y hy hv f hf
  · have hgrow : FramesGrow U s.frames t'.frames := by
      rw [hmerged.frames, show t2.frames = t1.frames by rw [show t2 = _ from Sketch.restoreFrom_eq _ _ _]]
      exact hframes
    rwa [show U = V from funext fun v => propext (hUV v)] at hgrow
  · have hne : flows ≠ [] := fun hnil => by
      rw [hmerged.dead.2 hnil] at hlive
      cases hlive
    have hv : v < s.vars.size := by
      by_contra hge
      obtain ⟨y2, hy2, -, hscope⟩ := hmerged.alike.back hmerged.size hy
      obtain ⟨y1, hy1, -, hscope1⟩ := halike2.back (restored_size _ _ _) hy2
      have hclosed : t.isClosed y1 = true := by
        refine h.closed v y1 (not_lt.1 hge) ?_
        rwa [ht1] at hy1
      have : t'.isClosed y = true := by
        rw [hmerged.alike.isClosed hscope, halike2.isClosed hscope1, halike1.isClosed rfl]
        exact hclosed
      rw [hopen] at this
      cases this
    exact hmerged.known hne v y hv hy hopen

/-! ## Whole conditionals -/

theorem Branching.restore (h : Branching V U L j flows s A t B) :
    Branching V U L j flows s A (t.restoreFrom 0 (s.snapshot s.vars.size).toList) B := by
  have halike := alike_restoreFrom t (s.snapshot s.vars.size)
  refine ⟨h.within.restore.1, h.left, h.join.alter h.within.drawn.shows.sound halike.carries, h.kept, h.live,
    fun v x hv hx => ?_, ?_⟩
  · obtain ⟨y, hy, -, hscope⟩ := halike.back (restored_size _ _ _) hx
    rw [halike.isClosed hscope]
    exact h.closed v y hv hy
  · rw [Sketch.restoreFrom_eq]
    exact h.framed

variable {c : Option Value} {t0 : Sketch} {u : Unit}

/-- Where control does not get, nothing of a construct is laid out. -/
theorem laid_node {A' : Sheet} {node : Node} (hquiet : s.dead = true → t'.dead = true)
    (hlaid : s.dead = false → node.Laid A' s.around A.chart.current A.top (point t' A')) :
    LaidAll A' s.around [node] (point s A) (point t' A') := by
  rw [point]
  cases hdead : s.dead with
  | true =>
    rw [point, hquiet hdead]
    exact laidAll_none _
  | false => exact laidAll_one (hlaid hdead)

theorem draws_ifThen (hstart : startIf c false position s = .ok (some k, t0)) (herr0 : t0.error = none)
    (hc : ∀ w, c = some w → Refers s w) (henter : enterPart k k.yes t0 = .ok (u, t1)) (yes : List Node)
    (hd : Drawn s A) (hr : AllReady s A) :
    ∃ B1, Drawn t1 B1 ∧ AllReady t1 B1 ∧ A.Extends B1 ∧
      ∀ t2 B2, Draws yes t1 B1 t2 B2 → Closes t1 t2 → t2.error = none → ∀ k' t3 t',
        leavePart k position t2 = .ok (k', t3) → endIf k' t3 = .ok (u, t') →
          ∃ A', Draws [.choose (conditionCell c) yes []] s A t' A' ∧ B2.Extends A' := by
  have hcalm1 : s.Calm t1 := Lasting.trans (Leads.holds _ _ _ hstart) (Leads.holds _ _ _ henter)
  obtain ⟨w, x, L, y, j, n, B, rfl, hx, hopen, hparted⟩ :=
    startIf_ok (· ∈ assignedAll yes) hstart herr0 hd hr hc
  obtain ⟨rfl, hL, ⟨hyj, -⟩, hnj, hbranching, hy, -, hrestored, hsize, hended⟩ := hparted
  obtain rfl : n = j := hnj
  obtain ⟨B1, hd1, hr1, hext1, hpart⟩ := hbranching.part yes [n] position hy ((hL y).2 (.inl rfl)) hyj
    ((hL n).2 (.inr (.inl rfl))) hrestored rfl henter (fun _ h => h)
    ⟨fun z hz => by simpa using (hL z).1 hz, fun z hz => by simp_all⟩
  refine ⟨B1, hd1, hr1, hbranching.within.grows.ext.trans hext1,
    fun t2 B2 hdraws hclosed herr k' t3 t' hleave hend => ?_⟩
  have hcalm : continuesAny yes = false → s.Calm t' := fun hn =>
    Lasting.trans hcalm1 (Lasting.trans (hdraws.calm hn) (Lasting.trans (Leads.holds _ _ _ hleave)
      (Leads.holds _ _ _ hend)))
  obtain ⟨B3, q, hbranching3, hlaid, hjump, hext3, -, hmade⟩ := hpart t2 B2 hdraws hclosed
  rw [leavePart_run herr] at hleave
  cases hleave
  obtain ⟨A', hprogress, hhead, hext', hsize'⟩ := endIf_ok hbranching3 (fun v => by simp)
    List.mem_cons_self (fun z hz => List.mem_singleton.1 hz) rfl rfl rfl rfl hend
  have hext := (hext1.trans hdraws.progress.grows.ext).trans (hext3.trans hext')
  refine ⟨A', ⟨hprogress.congr fun v => by simp [assignedAll, Node.assigned], ?_, fun v hv hlt => ?_,
    fun hn => hcalm (by simpa [continuesAny, Node.continues] using hn)⟩, hext3.trans hext'⟩
  · refine laid_node hprogress.evolves.quiet fun hlive => ?_
    exact ⟨x.ref, y, n, n, q, none, hprogress.grows.ext.knows _ _ _ _ (hr.env hlive _ x trivial hx hopen),
      hended.mono hext, (hlaid hlive).mono hext', hjump.mono hext', .inl ⟨rfl, rfl⟩, hhead⟩
  · rw [hsize', goTo_eq] at hlt
    simpa [madeAll, Node.made] using hmade v (hsize.symm ▸ hv) hlt

/-- A conditional with two parts. -/
theorem draws_ifElse (hstart : startIf c true position s = .ok (some k, t0)) (herr0 : t0.error = none)
    (hc : ∀ w, c = some w → Refers s w) (henter : enterPart k k.yes t0 = .ok (u, t1)) (yes no : List Node)
    (hd : Drawn s A) (hr : AllReady s A) :
    ∃ B1, Drawn t1 B1 ∧ AllReady t1 B1 ∧ A.Extends B1 ∧
      ∀ t2 B2, Draws yes t1 B1 t2 B2 → Closes t1 t2 → t2.error = none → ∀ k' t3 t4 t5,
        leavePart k position t2 = .ok (k', t3) → restore k'.before t3 = .ok (u, t4) →
        enterPart k' k'.no t4 = .ok (u, t5) → ∃ B5, Drawn t5 B5 ∧ AllReady t5 B5 ∧ B2.Extends B5 ∧
            ∀ t6 B6, Draws no t5 B5 t6 B6 → Closes t5 t6 → t6.error = none → ∀ k'' t7 t',
              leavePart k' position t6 = .ok (k'', t7) → endIf k'' t7 = .ok (u, t') →
                ∃ A', Draws [.choose (conditionCell c) yes no] s A t' A' ∧ B6.Extends A' := by
  have hcalm1 : s.Calm t1 := Lasting.trans (Leads.holds _ _ _ hstart) (Leads.holds _ _ _ henter)
  obtain ⟨w, x, L, y, j, n, B, rfl, hx, hopen, hparted⟩ :=
    startIf_ok (fun v => v ∈ assignedAll yes ∨ v ∈ assignedAll no) hstart herr0 hd hr hc
  obtain ⟨rfl, hL, ⟨hyj, hyn⟩, hnj, hbranching, hy, hn, hrestored, hsize, hended⟩ := hparted
  replace hnj : n ≠ j := hnj
  obtain ⟨B1, hd1, hr1, hext1, hpart⟩ := hbranching.part yes [n, j] position hy
    ((hL y).2 (.inl rfl)) hyj ((hL j).2 (.inr (.inr rfl))) hrestored rfl henter (fun _ h => .inl h)
    ⟨fun z hz => by simpa using (hL z).1 hz, fun z hz => (hL z).2 (.inr (by simpa using hz))⟩
  refine ⟨B1, hd1, hr1, hbranching.within.grows.ext.trans hext1,
    fun t2 B2 hdraws hclosed herr k' t3 t4 t5 hleave hrestore henter' => ?_⟩
  have hcalm5 : t2.Calm t5 := Lasting.trans (Leads.holds _ _ _ hleave)
    (Lasting.trans (Leads.holds _ _ _ hrestore) (Leads.holds _ _ _ henter'))
  obtain ⟨B3, q, hbranching3, hlaid, hjump, hext3, hawaits, hmade⟩ := hpart t2 B2 hdraws hclosed
  rw [leavePart_run herr] at hleave
  cases hleave
  rw [restore_run] at hrestore
  cases hrestore
  have hn3 := hawaits n _ _ ((hL n).2 (.inr (.inl rfl))) hyn.symm hnj hn
  have hbranching4 := hbranching3.restore
  have hn4 := hn3.alter hbranching3.within.drawn.shows.sound
    (alike_restoreFrom _ (s.snapshot s.vars.size)).carries
  obtain ⟨B5, hd5, hr5, hext5, hpart'⟩ := hbranching4.part no [j] position hn4
    List.mem_cons_self hnj (by simp) hbranching3.within.restore.2 rfl henter' (fun _ h => .inr h)
    ⟨fun z hz => by simpa using hz, fun z hz => List.mem_cons_of_mem _ hz⟩
  refine ⟨B5, hd5, hr5, hext3.trans hext5, fun t6 B6 hdraws' hclosed' herr' k'' t7 t' hleave' hend => ?_⟩
  have hcalm7 : t6.Calm t' := Lasting.trans (Leads.holds _ _ _ hleave') (Leads.holds _ _ _ hend)
  obtain ⟨B7, q', hbranching7, hlaid', hjump', hext7, -, hmade'⟩ := hpart' t6 B6 hdraws' hclosed'
  rw [leavePart_run herr'] at hleave'
  cases hleave'
  obtain ⟨A', hprogress, hhead, hext', hsize'⟩ := endIf_ok hbranching7 (fun v => by simp)
    List.mem_cons_self (fun z hz => List.mem_singleton.1 hz) rfl rfl rfl rfl hend
  have hext3' := (hext5.trans hdraws'.progress.grows.ext).trans (hext7.trans hext')
  have hext := ((hext1.trans hdraws.progress.grows.ext).trans hext3).trans hext3'
  refine ⟨A', ⟨hprogress.congr fun v => by simp [assignedAll, Node.assigned], ?_, fun v hv hlt => ?_,
    fun hn => ?_⟩, hext7.trans hext'⟩
  · refine laid_node hprogress.evolves.quiet fun hlive => ?_
    exact ⟨x.ref, y, n, j, q, q', hprogress.grows.ext.knows _ _ _ _ (hr.env hlive _ x trivial hx hopen),
      hended.mono hext, (hlaid hlive).mono hext3', hjump.mono hext3',
      .inr ⟨(hlaid' hlive).mono hext', hjump'.mono hext'⟩, hhead⟩
  · rw [hsize', goTo_eq] at hlt
    have hmem : v ∈ madeAll yes ∨ v ∈ madeAll no := by
      by_cases hlt2 : v < t2.vars.size
      · exact .inl (hmade v (hsize.symm ▸ hv) hlt2)
      · refine .inr (hmade' v ?_ hlt)
        rw [restored_size, goTo_eq]
        exact not_lt.1 hlt2
    simpa [madeAll, Node.made] using hmem
  · obtain ⟨hyes, hno⟩ : continuesAny yes = false ∧ continuesAny no = false := by
      simpa [continuesAny, Node.continues] using hn
    exact Lasting.trans hcalm1 (Lasting.trans (hdraws.calm hyes)
      (Lasting.trans hcalm5 (Lasting.trans (hdraws'.calm hno) hcalm7)))

end Codesmith.Describe
