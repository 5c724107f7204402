import Codesmith.Proofs.Chart.Draw
import Codesmith.Proofs.Direct.Node

/-!
# How sheets lay out structured programs

A statement is laid out from a point of a sheet to another if the items and exits between them are those
of the statement. A statement may also start or end nowhere: then control does not get there. Runs of a
sheet follow the direct interpretation of what is laid out on it.
-/

namespace Codesmith.Direct

open Gen
variable {o : Option Result} {v : Nat} {yes no : Label} {nodes : List Node}

/-- A place in front of an item of a block; absent where control does not get. -/
abbrev Point := Option (Label × Nat)

/-- The blocks to which control leaves a loop and goes to its next round. -/
structure Around where
  exit : Label
  next : Label

variable (A B : Sheet)

/-- The word of a source is found in a value, after the line that makes it if it is a constant. -/
inductive Fetches (l : Label) (j : Nat) : Source → Ref → Nat → Prop
  | cell {v : Nat} {x : Ref} : B.Knows l j v x → Fetches l j (.cell v) x j
  | word {bits : UInt64} {x : Ref} : (B.items l)[j]? = some (.line (.compute x (.imm bits))) →
      Fetches l j (.word bits) x (j + 1)

/-- A block ends before an item. -/
structure EndsAt (l : Label) (j : Nat) (e : Exit) : Prop where
  last : j = B.last l
  exit : (B.chart.block l).exit = some e

/-- A variable takes over the word of a source. -/
def Takes (v : Nat) (x : Source) (l : Label) (j : Nat) (q : Point) : Prop :=
  ∃ r i, Fetches B l j x r i ∧ (B.items l)[i]? = some (.note v r) ∧ q = some (l, i + 1)

/-- If control gets to a point, a block ends there with a jump. -/
def JumpsTo (q : Point) (t : Label) : Prop :=
  ∀ l j, q = some (l, j) → EndsAt B l j (.jump t)

/-- If control gets to a point, a block ends there with a test, or with a jump if there is no
condition. -/
def Tests (c : Option Nat) (q : Point) (yes no : Label) : Prop :=
  ∀ l j, q = some (l, j) → match c with
    | none => EndsAt B l j (.jump yes)
    | some v => ∃ x, B.Knows l j v x ∧ EndsAt B l j (.branch x yes no)

/-- The head of a block, unless the block is given up. -/
def AtHead (q : Point) (t : Label) : Prop :=
  q = some (t, 0) ∨ q = none ∧ B.dead t

mutual

/-- A statement is laid out from a place of a block to a point. -/
def Node.Laid (a : Option Around) : Node → Label → Nat → Point → Prop
  | .take out x, l, j, q => Takes B out x l j q
  | .assign v x, l, j, q => Takes B v x l j q
  | .make out c v x, l, j, q => ∃ r i y z, Fetches B l j x r i ∧ B.Knows l i v z ∧
      (B.items l)[i]? = some (.line (.compute y (c.rename (pair z r)))) ∧
        (B.items l)[i + 1]? = some (.note out y) ∧ q = some (l, i + 2)
  | .store k p x, l, j, q => ∃ r i z, Fetches B l j x r i ∧ B.Knows l i p z ∧
      (B.items l)[i]? = some (.line (.store k z r)) ∧ q = some (l, i + 1)
  | .choose c yes no, l, j, q => ∃ x y n t q₁ q₂, B.Knows l j c x ∧
      EndsAt B l j (.branch x (y : Label) (n : Label)) ∧
        LaidAll a yes (some (y, 0)) q₁ ∧ JumpsTo B q₁ t ∧
          (n = t ∧ no = [] ∨ LaidAll a no (some (n, 0)) q₂ ∧ JumpsTo B q₂ t) ∧ AtHead B q t
  | .loop test c stepped step body, l, j, q => ∃ h b n x q₁ q₂ p₃ q₃,
      EndsAt B l j (.jump (h : Label)) ∧ LaidAll a test (some (h, 0)) q₁ ∧ Tests B c q₁ b x ∧
        LaidAll (some ⟨x, n⟩) body (q₁.map fun _ => (b, 0)) q₂ ∧ JumpsTo B q₂ n ∧
          (stepped = false ∧ n = h ∧ step = [] ∨
            AtHead B p₃ n ∧ LaidAll a step p₃ q₃ ∧ JumpsTo B q₃ h) ∧ AtHead B q x
  | .doLoop body test c, l, j, q => ∃ b t x q₁ p₂ q₂, EndsAt B l j (.jump (b : Label)) ∧
      LaidAll (some ⟨x, t⟩) body (some (b, 0)) q₁ ∧ JumpsTo B q₁ t ∧ AtHead B p₂ t ∧
        LaidAll a test p₂ q₂ ∧ Tests B c q₂ b x ∧ AtHead B q x
  | .leave, l, j, q => (∃ r, a = some r ∧ EndsAt B l j (.jump r.exit)) ∧ q = none
  | .next, l, j, q => (∃ r, a = some r ∧ EndsAt B l j (.jump r.next)) ∧ q = none
  | .ret none, l, j, q => EndsAt B l j (.ret none) ∧ q = none
  | .ret (some x), l, j, q => (∃ r i, Fetches B l j x r i ∧ EndsAt B l i (.ret (some r))) ∧ q = none

/-- Statements are laid out one after the other. -/
def LaidAll (a : Option Around) : List Node → Point → Point → Prop
  | [], p, q => q = p
  | n :: ns, p, q => ∃ r, (match p with
      | none => r = none
      | some (l, j) => n.Laid a l j r) ∧ LaidAll a ns r q

end

/-! ## Putting layouts together -/

section Extending

variable {A B} {a : Option Around} {l t : Label} {i j : Nat} {p q r : Point} {ns ms : List Node}

theorem laidAll_none (ns : List Node) : LaidAll B a ns none none := by
  induction ns with
  | nil => exact rfl
  | cons n ns ih => exact ⟨none, rfl, ih⟩

theorem LaidAll.append (h : LaidAll B a ns p q) (h' : LaidAll B a ms q r) : LaidAll B a (ns ++ ms) p r := by
  induction ns generalizing p with
  | nil => exact (show q = p from h) ▸ h'
  | cons n ns ih =>
    obtain ⟨u, hn, hns⟩ := h
    exact ⟨u, hn, ih hns⟩

theorem laidAll_one {n : Node} (h : n.Laid B a l j q) : LaidAll B a [n] (some (l, j)) q :=
  ⟨q, h, rfl⟩

theorem Fetches.mono {x : Source} {y : Ref} (h : Fetches A l j x y i) (hAB : A.Extends B) :
    Fetches B l j x y i := by
  cases h with
  | cell hk => exact .cell (hAB.knows _ _ _ _ hk)
  | word hline => exact .word (hAB.getElem? hline)

theorem EndsAt.mono {e : Exit} (h : EndsAt A l j e) (hAB : A.Extends B) : EndsAt B l j e := by
  obtain ⟨hexit, hitems⟩ := hAB.exit l e h.exit
  exact ⟨by rw [Sheet.last, hitems]; exact h.last, hexit⟩

theorem Takes.mono {v : Nat} {x : Source} (h : Takes A v x l j q) (hAB : A.Extends B) :
    Takes B v x l j q := by
  obtain ⟨y, i, hf, hnote, hq⟩ := h
  exact ⟨y, i, hf.mono hAB, hAB.getElem? hnote, hq⟩

theorem JumpsTo.mono (h : JumpsTo A q t) (hAB : A.Extends B) : JumpsTo B q t :=
  fun l j hq => (h l j hq).mono hAB

theorem Tests.mono {c : Option Nat} {yes no : Label} (h : Tests A c q yes no) (hAB : A.Extends B) :
    Tests B c q yes no := by
  intro l j hq
  have h := h l j hq
  cases c with
  | none => exact h.mono hAB
  | some v =>
    obtain ⟨x, hx, hend⟩ := h
    exact ⟨x, hAB.knows _ _ _ _ hx, hend.mono hAB⟩

theorem AtHead.mono (h : AtHead A q t) (hAB : A.Extends B) : AtHead B q t :=
  h.imp_right fun ⟨hq, hdead⟩ => ⟨hq, hAB.dead t hdead⟩

mutual

/-- What is laid out stays so when more is drawn. -/
theorem Node.Laid.mono (hAB : A.Extends B) (node : Node) {a : Option Around} {l : Label} {j : Nat}
    {q : Point} (h : node.Laid A a l j q) : node.Laid B a l j q := by
  match node, h with
  | .take out x, h => exact Takes.mono h hAB
  | .assign v x, h => exact Takes.mono h hAB
  | .make out c v x, ⟨r, i, y, z, hf, hz, hline, hnote, hq⟩ =>
    exact ⟨r, i, y, z, hf.mono hAB, hAB.knows _ _ _ _ hz, hAB.getElem? hline, hAB.getElem? hnote, hq⟩
  | .store kind p x, ⟨r, i, z, hf, hz, hline, hq⟩ =>
    exact ⟨r, i, z, hf.mono hAB, hAB.knows _ _ _ _ hz, hAB.getElem? hline, hq⟩
  | .choose c yes no, ⟨x, y, n, t, q1, q2, hx, hend, hyes, hq1, hno, hq⟩ =>
    refine ⟨x, y, n, t, q1, q2, hAB.knows _ _ _ _ hx, hend.mono hAB, LaidAll.mono hAB yes hyes,
      hq1.mono hAB, hno.imp_right fun ⟨hno, hq2⟩ => ?_, hq.mono hAB⟩
    exact ⟨LaidAll.mono hAB no hno, hq2.mono hAB⟩
  | .loop test c stepped step body, ⟨h, b, n, x, q1, q2, p3, q3, hend, htest, hc, hbody, hn, hstep, hq⟩ =>
    refine ⟨h, b, n, x, q1, q2, p3, q3, hend.mono hAB, LaidAll.mono hAB test htest, hc.mono hAB,
      LaidAll.mono hAB body hbody, hn.mono hAB, hstep.imp_right fun ⟨hp3, hstep, hq3⟩ => ?_,
      hq.mono hAB⟩
    exact ⟨hp3.mono hAB, LaidAll.mono hAB step hstep, hq3.mono hAB⟩
  | .doLoop body test c, ⟨b, t, x, q1, p2, q2, hend, hbody, hq1, hp2, htest, hc, hq⟩ =>
    exact ⟨b, t, x, q1, p2, q2, hend.mono hAB, LaidAll.mono hAB body hbody, hq1.mono hAB,
      hp2.mono hAB, LaidAll.mono hAB test htest, hc.mono hAB, hq.mono hAB⟩
  | .leave, ⟨⟨r, hr, hend⟩, hq⟩ => exact ⟨⟨r, hr, hend.mono hAB⟩, hq⟩
  | .next, ⟨⟨r, hr, hend⟩, hq⟩ => exact ⟨⟨r, hr, hend.mono hAB⟩, hq⟩
  | .ret none, ⟨hend, hq⟩ => exact ⟨hend.mono hAB, hq⟩
  | .ret (some x), ⟨⟨r, i, hf, hend⟩, hq⟩ => exact ⟨⟨r, i, hf.mono hAB, hend.mono hAB⟩, hq⟩

theorem LaidAll.mono (hAB : A.Extends B) (nodes : List Node) {a : Option Around} {p q : Point}
    (h : LaidAll A a nodes p q) : LaidAll B a nodes p q := by
  match nodes, h with
  | [], h => exact h
  | node :: nodes, ⟨r, hnode, hrest⟩ =>
    refine ⟨r, ?_, LaidAll.mono hAB nodes hrest⟩
    match p, hnode with
    | none, hr => exact hr
    | some (l, j), hnode => exact Node.Laid.mono hAB node hnode

end

end Extending

/-! ## Following a program -/

/-- A run does what came of a part of a program that is laid out up to a point. If the part was not given
enough rounds, the run takes at least as many steps. -/
def Meets (args : Array Word) (a : Option Around) (q : Point) (n : Nat) (s : Chart.State) :
    Option Result → Prop
  | none => ∃ k t, n ≤ k ∧ Walks (B.chart.step args) k s t
  | some (.go .on cells m) => ∃ l j k t, q = some (l, j) ∧ Walks (B.chart.step args) k s t ∧
      B.Stands l j cells t ∧ t.memory = m
  | some (.go .leave cells m) => ∃ r k t, a = some r ∧ Walks (B.chart.step args) k s t ∧
      B.Stands r.exit 0 cells t ∧ t.memory = m
  | some (.go .next cells m) => ∃ r k t, a = some r ∧ Walks (B.chart.step args) k s t ∧
      B.Stands r.next 0 cells t ∧ t.memory = m
  | some (.ended o) => Ends (B.chart.step args) s o

variable {B} {args : Array Word} {a : Option Around} {p q q' : Point} {l t : Label} {i j k n fuel : Nat}
  {s s' : Chart.State} {cells : Cells} {x : Source} {r : Ref}

theorem Meets.after (h : Meets B args a q n s' o) (hw : Walks (B.chart.step args) k s s') :
    Meets B args a q n s o := by
  match o, h with
  | none, ⟨k', t, hn, ht⟩ => exact ⟨k + k', t, hn.trans (Nat.le_add_left _ _), hw.trans ht⟩
  | some (.go .on _ _), ⟨l, j, k', t, hq, ht, h⟩ => exact ⟨l, j, k + k', t, hq, hw.trans ht, h⟩
  | some (.go .leave _ _), ⟨r, k', t, hr, ht, h⟩ => exact ⟨r, k + k', t, hr, hw.trans ht, h⟩
  | some (.go .next _ _), ⟨r, k', t, hr, ht, h⟩ => exact ⟨r, k + k', t, hr, hw.trans ht, h⟩
  | some (.ended _), h => exact hw.ends h

/-- The number of rounds does not matter for what was done. -/
theorem Meets.of_some {o : Result} (h : Meets B args a q n s (some o)) (n' : Nat) :
    Meets B args a q n' s (some o) := by
  match o, h with
  | .go .on _ _, h => exact h
  | .go .leave _ _, h => exact h
  | .go .next _ _, h => exact h
  | .ended _, h => exact h

/-! ### Single steps -/

/-- A run comes to a place where the word of a source is found in a value. -/
theorem Fetches.meets (h : Fetches B l j x r i) (args : Array Word) (hB : B.Sound)
    (hs : B.Stands l j cells s) :
    ∃ k t, Walks (B.chart.step args) k s t ∧ B.Stands l i cells t ∧ t.memory = s.memory ∧
      t.values r = x.value cells := by
  cases h with
  | cell hk => exact ⟨0, s, .refl s, hs, rfl, hs.value hk⟩
  | @word bits y hitem =>
    have hrun : (Act.compute r (.imm bits)).run args s.values s.memory =
        .ok (Function.update s.values r (.ofBits bits), s.memory) := rfl
    refine ⟨1, _, .one (by rw [hs.step_line args hB hitem, hrun]), hs.line hB hitem hrun, rfl, ?_⟩
    exact Function.update_self _ _ _

theorem Takes.meets (h : Takes B v x l j q) (hB : B.Sound) (hs : B.Stands l j cells s) :
    Meets B args a q n s (some (.go .on (Function.update cells v (x.value cells)) s.memory)) := by
  obtain ⟨r, i, hf, hnote, rfl⟩ := h
  obtain ⟨k, t, hw, ht, hm, hr⟩ := hf.meets args hB hs
  exact ⟨l, i + 1, k, t, rfl, hw, hr ▸ ht.note hB hnote, hm⟩

theorem EndsAt.edge {e : Exit} (h : EndsAt B l j e) (ht : (t : Int) ∈ e.targets) : B.Edge l t := by
  rw [Sheet.Edge, Graph.Edge, Chart.succs, h.exit]
  exact ht

theorem EndsAt.jump (h : EndsAt B l j (.jump t)) (args : Array Word) (hB : B.Sound)
    (hs : B.Stands l j cells s) :
    ∃ s', Walks (B.chart.step args) 1 s s' ∧ B.Stands t 0 cells s' ∧ s'.memory = s.memory :=
  ⟨B.chart.go s t, .one (hs.step_exit hB h.last h.exit),
    hs.go hB h.last (h.edge (List.mem_singleton.2 rfl)), rfl⟩

theorem EndsAt.branch (h : EndsAt B l j (.branch r yes no)) (args : Array Word) (hB : B.Sound)
    (hs : B.Stands l j cells s) (hr : B.Knows l j v r) : ∃ s', Walks (B.chart.step args) 1 s s' ∧
      B.Stands (if (cells v).isTrue then yes else no) 0 cells s' ∧ s'.memory = s.memory := by
  have hstep : B.chart.step args s = .next (B.chart.go s (if (cells v).isTrue then yes else no : Label)) := by
    rw [hs.step_exit hB h.last h.exit, Chart.leave, hs.value hr]
    split <;> rfl
  refine ⟨_, .one hstep, hs.go hB h.last (h.edge ?_), rfl⟩
  simp only [Exit.targets]
  split <;> split <;> simp_all

theorem AtHead.eq (h : AtHead B q t) (hs : B.Stands t 0 cells s) : q = some (t, 0) :=
  h.resolve_right fun hdead => hs.alive hdead.2

theorem Tests.meets {c : Option Nat} (h : Tests B c (some (l, j)) yes no) (args : Array Word) (hB : B.Sound)
    (hs : B.Stands l j cells s) : ∃ s', Walks (B.chart.step args) 1 s s' ∧
      B.Stands (if holds c cells then yes else no) 0 cells s' ∧ s'.memory = s.memory := by
  have h := h l j rfl
  cases c with
  | none => exact h.jump args hB hs
  | some v =>
    obtain ⟨r, hr, h⟩ := h
    exact h.branch args hB hs hr

/-! ### Parts and rounds -/

/-- Runs follow a part of a program from one point to another. -/
def Follows (B : Sheet) (args : Array Word) (a : Option Around) (fuel : Nat) (part : Part)
    (p q : Point) : Prop :=
  ∀ l j cells s, p = some (l, j) → B.Stands l j cells s →
    Meets B args a q fuel s (part cells s.memory)

/-- A run does what came of a round of a loop with the given head. If another round follows, it has
taken at least `d` steps. -/
def RoundMeets (B : Sheet) (args : Array Word) (a : Option Around) (h : Label) (q : Point) (n d : Nat)
    (s : Chart.State) : Option Round → Prop
  | none => ∃ k t, n ≤ k ∧ Walks (B.chart.step args) k s t
  | some (.again cells m) => ∃ k t, d ≤ k ∧ Walks (B.chart.step args) k s t ∧
      B.Stands h 0 cells t ∧ t.memory = m
  | some (.over r) => Meets B args a q n s (some r)

variable {h : Label} {d : Nat}

theorem RoundMeets.after {o : Option Round} (ho : RoundMeets B args a h q n d s' o)
    (hw : Walks (B.chart.step args) k s s') : RoundMeets B args a h q n (k + d) s o := by
  match o, ho with
  | none, ⟨k', t, hk, ht⟩ => exact ⟨k + k', t, hk.trans (Nat.le_add_left _ _), hw.trans ht⟩
  | some (.again _ _), ⟨k', t, hk, ht, ho⟩ => exact ⟨k + k', t, Nat.add_le_add_left hk k, hw.trans ht, ho⟩
  | some (.over r), ho => exact Meets.after (o := some r) ho hw

theorem RoundMeets.mono {o : Option Round} {d' : Nat} (ho : RoundMeets B args a h q n d s o)
    (hd : d' ≤ d) : RoundMeets B args a h q n d' s o := by
  match o, ho with
  | none, ho => exact ho
  | some (.again _ _), ⟨k, t, hk, ho⟩ => exact ⟨k, t, hd.trans hk, ho⟩
  | some (.over r), ho => exact ho

/-- If runs follow every round of a loop, they follow the loop. -/
theorem rounds_meets {round : Cells → Memory → Option Round} (hround : ∀ cells s, B.Stands h 0 cells s →
      RoundMeets B args a h q fuel 1 s (round cells s.memory)) (hn : n ≤ fuel)
    (hs : B.Stands h 0 cells s) : Meets B args a q n s (rounds round n cells s.memory) := by
  induction n generalizing cells s with
  | zero => exact ⟨0, s, Nat.le_refl 0, .refl s⟩
  | succ n ih =>
    have hmeets := hround cells s hs
    rw [rounds]
    revert hmeets
    rcases round cells s.memory with _ | ⟨cells', m⟩ | res
    · rintro ⟨k, t, hk, hw⟩
      exact ⟨k, t, hn.trans hk, hw⟩
    · rintro ⟨k, t, hk, hw, ht, rfl⟩
      have ih := ih (Nat.le_of_succ_le hn) ht
      revert ih
      show Meets B args a q n t (rounds round n cells' t.memory) →
        Meets B args a q (n + 1) s (rounds round n cells' t.memory)
      rcases rounds round n cells' t.memory with _ | res
      · -- The round has taken a step, so the steps count for one round more.
        rintro ⟨k', t', hk', hw'⟩
        exact ⟨k + k', t', by omega, hw.trans hw'⟩
      · exact fun ih => (ih.of_some (n + 1)).after hw
    · exact fun hmeets => Meets.of_some (n := fuel) hmeets (n + 1)

/-- Runs follow the last part of a round to the head of the loop. -/
theorem lastPart_meets {part : Part} (hpart : Follows B args a fuel part p q') (hB : B.Sound)
    (hp : AtHead B p t) (hq : JumpsTo B q' h) (hs : B.Stands t 0 cells s) :
    RoundMeets B args a h q fuel 0 s (lastPart part cells s.memory) := by
  have hmeets := hpart t 0 cells s (hp.eq hs) hs
  rw [lastPart]
  revert hmeets
  rcases part cells s.memory with _ | ⟨⟨⟩, cells', m⟩ | o
  · exact id
  · rintro ⟨l, j, k, s1, rfl, hw, hs1, rfl⟩
    obtain ⟨s2, hw2, hs2, hm⟩ := (hq l j rfl).jump args hB hs1
    exact ⟨k + 1, s2, Nat.zero_le _, hw.trans hw2, hs2, hm⟩
  · exact id
  · exact id
  · exact id

theorem Meets.on {x : Label} (hq : AtHead B q x) (hw : Walks (B.chart.step args) k s s')
    (hs : B.Stands x 0 cells s') :
    Meets B args a q n s (some (.go .on cells s'.memory)) :=
  ⟨x, 0, k, s', hq.eq hs, hw, hs, rfl⟩

theorem RoundMeets.on {x : Label} (hq : AtHead B q x) (hw : Walks (B.chart.step args) k s s')
    (hs : B.Stands x 0 cells s') :
    RoundMeets B args a h q n d s (some (.over (.go .on cells s'.memory))) :=
  Meets.on (a := a) (n := n) hq hw hs

/-- Control that comes to the end of a part goes on at the join. -/
theorem meets_join (hB : B.Sound) (hq' : JumpsTo B q' t) (hq : AtHead B q t) (h : Meets B args a q' n s o) :
    Meets B args a q n s o := by
  match o, h with
  | none, h => exact h
  | some (.go .on cells _), ⟨l, j, k, s1, hq1, hw, hs1, rfl⟩ =>
    obtain ⟨s2, hw2, hs2, hm⟩ := (hq' l j hq1).jump args hB hs1
    exact hm ▸ Meets.on hq (hw.trans hw2) hs2
  | some (.go .leave _ _), h => exact h
  | some (.go .next _ _), h => exact h
  | some (.ended _), h => exact h

section Loops

variable {test body step : Part} {c : Option Nat} {b x m : Label} {q1 q2 : Point}

theorem loopRound_meets (hB : B.Sound) (htest : Follows B args a fuel test (some (h, 0)) q1)
    (hc : Tests B c q1 b x)
    (hbody : Follows B args (some ⟨x, m⟩) fuel body (q1.map fun _ => (b, 0)) q2)
    (hm : JumpsTo B q2 m)
    (hstep : ∀ cells s, B.Stands m 0 cells s →
      RoundMeets B args a h q fuel 0 s (lastPart step cells s.memory)) (hx : AtHead B q x)
    (hs : B.Stands h 0 cells s) :
    RoundMeets B args a h q fuel 1 s (loopRound test c step body cells s.memory) := by
  have hmeets := htest h 0 cells s rfl hs
  rw [loopRound]
  revert hmeets
  rcases test cells s.memory with _ | ⟨⟨⟩, cells1, m1⟩ | o
  · exact id
  · rintro ⟨l1, j1, k1, s1, rfl, hw1, hs1, rfl⟩
    obtain ⟨s2, hw2, hs2, hm2⟩ := hc.meets args hB hs1
    have hw := hw1.trans hw2
    rw [← hm2]
    show RoundMeets B args a h q fuel 1 s (if holds c cells1 then _ else _)
    split at hs2
    · rename_i hcond
      rw [if_pos hcond]
      have hmeets := hbody b 0 cells1 s2 rfl hs2
      revert hmeets
      rcases body cells1 s2.memory with _ | ⟨⟨⟩, cells3, m3⟩ | o
      · rintro ⟨k, t, hk, ht⟩
        exact ⟨_, t, hk.trans (Nat.le_add_left _ _), hw.trans ht⟩
      · rintro ⟨l3, j3, k3, s3, rfl, hw3, hs3, rfl⟩
        obtain ⟨s4, hw4, hs4, hm4⟩ := (hm l3 j3 rfl).jump args hB hs3
        rw [← hm4]
        exact ((hstep _ _ hs4).after (hw.trans (hw3.trans hw4))).mono (by omega)
      · rintro ⟨r, k3, s3, hr, hw3, hs3, rfl⟩
        cases hr
        exact RoundMeets.on hx (hw.trans hw3) hs3
      · rintro ⟨r, k3, s3, hr, hw3, hs3, rfl⟩
        cases hr
        exact ((hstep _ _ hs3).after (hw.trans hw3)).mono (by omega)
      · exact fun hmeets => hw.ends hmeets
    · rename_i hcond
      rw [if_neg hcond]
      exact RoundMeets.on hx hw hs2
  · exact id
  · exact id
  · exact id

/-- What a round that ends with a test does once its body is over. -/
def retest (test : Part) (c : Option Nat) (cells : Cells) (m : Memory) : Option Round := do
  match ← test cells m with
  | .go .on cells m => return if holds c cells then .again cells m else .over (.go .on cells m)
  | r => return .over r

/-- Runs follow a round that ends with a test. -/
theorem doRound_meets (hB : B.Sound) (hbody : Follows B args (some ⟨x, m⟩) fuel body (some (b, 0)) q1)
    (hm : JumpsTo B q1 m) (hp : AtHead B p m) (htest : Follows B args a fuel test p q2)
    (hc : Tests B c q2 b x) (hx : AtHead B q x) (hs : B.Stands b 0 cells s) :
    RoundMeets B args a b q fuel 1 s (doRound body test c cells s.memory) := by
  -- After the body control comes to the test, whether the body ends or goes to the next round.
  have hrest : ∀ k cells s1, Walks (B.chart.step args) k s s1 → B.Stands m 0 cells s1 →
      RoundMeets B args a b q fuel 1 s (retest test c cells s1.memory) := by
    intro k cells s1 hw hs1
    rw [retest]
    have hmeets := htest m 0 cells s1 (hp.eq hs1) hs1
    revert hmeets
    rcases test cells s1.memory with _ | ⟨⟨⟩, cells2, m2⟩ | o
    · rintro ⟨k', t, hk, ht⟩
      exact ⟨_, t, hk.trans (Nat.le_add_left _ _), hw.trans ht⟩
    · rintro ⟨l2, j2, k2, s2, rfl, hw2, hs2, rfl⟩
      obtain ⟨s3, hw3, hs3, hm3⟩ := hc.meets args hB hs2
      have hw := hw.trans (hw2.trans hw3)
      show RoundMeets B args a b q fuel 1 s (some (if holds c cells2 then _ else _))
      rw [← hm3]
      split at hs3
      · rename_i hcond
        rw [if_pos hcond]
        exact ⟨_, s3, by omega, hw, hs3, rfl⟩
      · rename_i hcond
        rw [if_neg hcond]
        exact RoundMeets.on hx hw hs3
    · exact fun hmeets => Meets.after (o := some (.go .leave cells2 m2)) hmeets hw
    · exact fun hmeets => Meets.after (o := some (.go .next cells2 m2)) hmeets hw
    · exact fun hmeets => hw.ends hmeets
  have hmeets := hbody b 0 cells s rfl hs
  rw [doRound]
  revert hmeets
  rcases body cells s.memory with _ | ⟨⟨⟩, cells1, m1⟩ | o
  · exact id
  · rintro ⟨l1, j1, k1, s1, rfl, hw1, hs1, rfl⟩
    obtain ⟨s2, hw2, hs2, hm2⟩ := (hm l1 j1 rfl).jump args hB hs1
    rw [← hm2]
    exact hrest _ _ _ (hw1.trans hw2) hs2
  · rintro ⟨r, k1, s1, hr, hw1, hs1, rfl⟩
    cases hr
    exact RoundMeets.on hx hw1 hs1
  · rintro ⟨r, k1, s1, hr, hw1, hs1, rfl⟩
    cases hr
    exact hrest _ _ _ hw1 hs1
  · exact id

end Loops

/-! ### Programs -/

mutual

/-- Runs follow a statement that is laid out. -/
theorem Node.meets (args : Array Word) (hB : B.Sound) (fuel : Nat) (node : Node)
    {a : Option Around} {q : Point} {l : Label} {j : Nat} {cells : Cells} {s : Chart.State} (h : node.Laid B a l j q)
    (hs : B.Stands l j cells s) : Meets B args a q fuel s (node.exec fuel cells s.memory) := by
  match node, h with
  | .take out x, h => exact Takes.meets h hB hs
  | .assign v x, h => exact Takes.meets h hB hs
  | .make out c v x, ⟨r, i, y, z, hf, hz, hline, hnote, hq⟩ =>
    obtain ⟨k, t, hw, ht, hm, hr⟩ := hf.meets args hB hs
    have hvalue : (c.rename (pair z r)).value t.values t.memory =
        c.value (pair (cells v) (x.value cells)) s.memory := by
      rw [hm]
      refine Compute.value_rename s.memory fun i _ => ?_
      unfold pair
      split
      · exact ht.value hz
      · exact hr
    have hstep := ht.step_line args hB hline
    simp only [Act.run, hvalue] at hstep
    rw [Node.exec]
    cases hc : c.value (pair (cells v) (x.value cells)) s.memory with
    | error f =>
      rw [hc, hm] at hstep
      exact hw.ends (.stop (by rw [hstep]; rfl))
    | ok w =>
      rw [hc] at hstep
      have hrun : (Act.compute y (c.rename (pair z r))).run args t.values t.memory =
          .ok (Function.update t.values y w, t.memory) := by
        simp only [Act.run, hvalue, hc]
        rfl
      have hnext := (ht.line hB hline hrun).note hB hnote
      simp only [Function.update_self] at hnext
      exact ⟨l, i + 2, _, _, hq, hw.trans (.one hstep), hnext, hm⟩
  | .store kind p x, ⟨r, i, z, hf, hz, hline, hq⟩ =>
    obtain ⟨k, t, hw, ht, hm, hr⟩ := hf.meets args hB hs
    have hstep := ht.step_line args hB hline
    simp only [Act.run, ht.value hz, hr, hm] at hstep
    rw [Node.exec]
    cases hc : s.memory.store kind (cells p) (x.value cells) with
    | error f =>
      rw [hc] at hstep
      exact hw.ends (.stop (by rw [hstep]; rfl))
    | ok m =>
      rw [hc] at hstep
      have hrun : (Act.store kind z r).run args t.values t.memory = .ok (t.values, m) := by
        simp only [Act.run, ht.value hz, hr, hm, hc]
        rfl
      exact ⟨l, i + 1, _, _, hq, hw.trans (.one hstep), ht.line hB hline hrun, rfl⟩
  | .choose c yes no, ⟨x, y, n, t, q1, q2, hx, hend, hyes, hq1, hno, hq⟩ =>
    obtain ⟨s1, hw, hs1, hm⟩ := hend.branch args hB hs hx
    rw [Node.exec, ← hm]
    refine Meets.after ?_ hw
    split at hs1
    · rename_i hcond
      rw [if_pos hcond]
      exact meets_join hB hq1 hq (followsAll args hB fuel yes hyes y 0 cells s1 rfl hs1)
    · rename_i hcond
      rw [if_neg hcond]
      rcases hno with ⟨rfl, rfl⟩ | ⟨hno, hq2⟩
      · exact Meets.on hq (.refl s1) hs1
      · exact meets_join hB hq2 hq (followsAll args hB fuel no hno n 0 cells s1 rfl hs1)
  | .loop test c stepped step body, ⟨h, b, n, x, q1, q2, p3, q3, hend, htest, hc, hbody, hn, hstep, hq⟩ =>
    obtain ⟨s1, hw, hs1, hm⟩ := hend.jump args hB hs
    rw [Node.exec, ← hm]
    refine Meets.after (rounds_meets (fun cells s hs => ?_) le_rfl hs1) hw
    refine loopRound_meets hB (followsAll args hB fuel test htest) hc
      (followsAll args hB fuel body hbody) hn (fun cells s hs' => ?_) hq hs
    rcases hstep with ⟨-, rfl, rfl⟩ | ⟨hp3, hstep, hq3⟩
    · exact ⟨0, s, Nat.le_refl 0, .refl s, hs', rfl⟩
    · exact lastPart_meets (followsAll args hB fuel step hstep) hB hp3 hq3 hs'
  | .doLoop body test c, ⟨b, t, x, q1, p2, q2, hend, hbody, hq1, hp2, htest, hc, hq⟩ =>
    obtain ⟨s1, hw, hs1, hm⟩ := hend.jump args hB hs
    rw [Node.exec, ← hm]
    refine Meets.after (rounds_meets (fun cells s hs => ?_) le_rfl hs1) hw
    exact doRound_meets hB (followsAll args hB fuel body hbody) hq1 hp2
      (followsAll args hB fuel test htest) hc hq hs
  | .leave, ⟨⟨r, hr, hend⟩, _⟩ =>
    obtain ⟨s1, hw, hs1, hm⟩ := hend.jump args hB hs
    exact ⟨r, 1, s1, hr, hw, hs1, hm⟩
  | .next, ⟨⟨r, hr, hend⟩, _⟩ =>
    obtain ⟨s1, hw, hs1, hm⟩ := hend.jump args hB hs
    exact ⟨r, 1, s1, hr, hw, hs1, hm⟩
  | .ret none, ⟨hend, _⟩ => exact .stop (by rw [hs.step_exit hB hend.last hend.exit]; rfl)
  | .ret (some x), ⟨⟨r, i, hf, hend⟩, _⟩ =>
    obtain ⟨k, t, hw, ht, hm, hr⟩ := hf.meets args hB hs
    refine hw.ends (.stop ?_)
    rw [ht.step_exit hB hend.last hend.exit, ← hm, Chart.leave, hr]
    rfl

/-- Runs follow statements that are laid out. -/
theorem followsAll (args : Array Word) (hB : B.Sound) (fuel : Nat) (nodes : List Node)
    {a : Option Around} {p q : Point} (h : LaidAll B a nodes p q) :
    Follows B args a fuel (execAll fuel nodes) p q := by
  match nodes, h with
  | [], h =>
    rintro l j cells s rfl hs
    exact ⟨l, j, 0, s, h, .refl s, hs, rfl⟩
  | node :: nodes, ⟨r, hnode, hrest⟩ =>
    rintro l j cells s rfl hs
    have hmeets := node.meets args hB fuel hnode hs
    rw [execAll]
    revert hmeets
    rcases node.exec fuel cells s.memory with _ | ⟨⟨⟩, cells1, m1⟩ | o
    · exact id
    · rintro ⟨l1, j1, k, s1, hr, hw, hs1, rfl⟩
      exact Meets.after (followsAll args hB fuel nodes hrest l1 j1 cells1 s1 hr hs1) hw
    · exact id
    · exact id
    · exact id

end

section

variable (hB : B.Sound) (hl : LaidAll B none nodes (some (l, j)) q)
  (hend : ∀ l j, q = some (l, j) → EndsAt B l j (.ret none))
  (hs : B.Stands l j (fun v => args.getD v .zero) s)
include hB hl hend hs

/-- What a program yields comes of every run that follows it. -/
theorem ends_of_run {o : Outcome Word} (hrun : run fuel nodes args s.memory = o) (ho : o ≠ .unfinished) :
    Ends (B.chart.step args) s o := by
  have hmeets := followsAll args hB fuel nodes hl l j _ s rfl hs
  rw [run] at hrun
  revert hrun hmeets
  rcases execAll fuel nodes (fun v => args.getD v .zero) s.memory with _ | ⟨⟨⟩, cells, m⟩ | o'
  · exact fun hrun => absurd hrun.symm ho
  · rintro rfl ⟨l', j', k, t, hq, hw, ht, rfl⟩
    have hlast := hend l' j' hq
    exact hw.ends (.stop (by rw [ht.step_exit hB hlast.last hlast.exit]; rfl))
  · rintro - ⟨r, -, -, hr, -⟩
    cases hr
  · rintro - ⟨r, -, -, hr, -⟩
    cases hr
  · rintro rfl hends
    exact hends

/-- A run of a sheet on which a program is laid out ends with what the program yields. -/
theorem ends_iff_yields {o : Outcome Word} : Ends (B.chart.step args) s o ↔ Yields nodes args s.memory o := by
  refine ⟨fun hends => ?_, fun ⟨ho, fuel, hrun⟩ => ends_of_run hB hl hend hs hrun ho⟩
  obtain ⟨n, hn⟩ := hends.iterate
  refine ⟨hends.ne_unfinished, n + 1, ?_⟩
  -- With more rounds than the run has steps, the program cannot be short of rounds.
  have hfinished : run (n + 1) nodes args s.memory ≠ .unfinished := by
    have hmeets := followsAll args hB (n + 1) nodes hl l j _ s rfl hs
    rw [run]
    intro hrun
    revert hmeets hrun
    rcases execAll (n + 1) nodes (fun v => args.getD v .zero) s.memory with _ | ⟨⟨⟩, cells, m⟩ | o'
    · rintro ⟨k, t, hk, hw⟩ -
      have := (hw.iterate_sub hn hends.ne_unfinished).1
      omega
    · exact fun _ hrun => nomatch hrun
    · exact fun _ hrun => nomatch hrun
    · exact fun _ hrun => nomatch hrun
    · rintro hends' rfl
      exact hends'.ne_unfinished rfl
  exact (ends_of_run hB hl hend hs rfl hfinished).unique hends

end

end Codesmith.Direct
