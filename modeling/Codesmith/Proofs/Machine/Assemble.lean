import Codesmith.Machine.Assembler
import Codesmith.Proofs.Access
import Codesmith.Proofs.Fetch

/-!
# Assembled code does what its instructions say

Assembling succeeds if the code ends, reads no negative register, holds only instructions with known
conditions, and jumps to placed labels. Each record of the result then does what its instruction
says: `Object.Assembled` keeps the correspondence, and there is one step lemma for each form of
instruction.
-/

namespace Codesmith.Machine

/-! ## Encoding -/

/-- The instruction has a record and reads no negative register. -/
structure Instr.Encodable (x : Instr) : Prop where
  reads : ∀ r ∈ x.reads, 0 ≤ r
  cond : ∀ out c k a b, x = .compute out (.compare c k a b) → c.valid = true
  known : ∀ type text, x ≠ .foreign type text

namespace Assembler

theorem encode_ok {x : Instr} (h : x.Encodable) (place : Nat) : ∃ c, encode place x = .ok c := by
  cases x with
  | compute out v =>
    cases v with
    | compare c k a b =>
      simp only [encode, encodeCompute, h.cond out c k a b rfl, if_true]
      exact ⟨_, rfl⟩
    | _ => exact ⟨_, rfl⟩
  | ret x => cases x <;> exact ⟨_, rfl⟩
  | foreign type text => exact absurd rfl (h.known type text)
  | _ => exact ⟨_, rfl⟩

variable (next : Reg → Reg)

/-- A register is counted if the number after it is greater. -/
theorem le_registerBound (n : Nat) (rs : List Reg) :
    n ≤ registerBound next n rs ∧ ∀ r ∈ rs, r < next r → r < registerBound next n rs := by
  induction rs generalizing n with
  | nil => exact ⟨le_rfl, by simp⟩
  | cons r rs ih =>
    obtain ⟨hle, hlt⟩ := ih (max n (next r).toNat)
    have heq : registerBound next n (r :: rs) = registerBound next (max n (next r).toNat) rs := rfl
    rw [heq]
    refine ⟨(le_max_left _ _).trans hle, fun s hs hnext => ?_⟩
    rcases List.mem_cons.1 hs with rfl | hs
    · have hcount : (next s).toNat ≤ registerBound next (max n (next s).toNat) rs :=
        (le_max_right _ _).trans hle
      exact hnext.trans_le ((Int.self_le_toNat _).trans (Int.ofNat_le.2 hcount))
    · exact hlt s hs hnext

theorem encodeAll_ok (xs : List Instr) (hxs : ∀ x ∈ xs, x.Encodable) (place regs : Nat) :
    ∃ cs n, encodeAll next place xs regs = .ok (cs, n) ∧ cs.length = xs.length ∧ regs ≤ n ∧
      (∀ (i : Nat) x, xs[i]? = some x → ∃ c p, cs[i]? = some c ∧ encode p x = .ok c) ∧
      ∀ x ∈ xs, ∀ r ∈ x.writes ++ x.reads, r < next r → r < n := by
  induction xs generalizing place regs with
  | nil => exact ⟨[], regs, rfl, rfl, le_rfl, by simp, by simp⟩
  | cons x xs ih =>
    have hx := hxs x List.mem_cons_self
    obtain ⟨c, hc⟩ := encode_ok hx place
    obtain ⟨hle, hlt⟩ := le_registerBound next regs (x.writes ++ x.reads)
    obtain ⟨cs, n, hok, hlen, hn, hcs, hregs⟩ :=
      ih (fun y hy => hxs y (List.mem_cons_of_mem _ hy)) (place + 1)
        (registerBound next regs (x.writes ++ x.reads))
    have hnone : x.reads.find? (fun r => decide (r < 0)) = none := by
      rw [List.find?_eq_none]
      intro r hr
      simpa using hx.reads r hr
    refine ⟨c :: cs, n, ?_, by simp [hlen], hle.trans hn, ?_, ?_⟩
    · rw [encodeAll, hnone, hc, hok]
    · intro i y hy
      cases i with
      | zero => exact ⟨c, place, rfl, Option.some.inj hy ▸ hc⟩
      | succ i => exact hcs i y hy
    · intro y hy r hr hnext
      rcases List.mem_cons.1 hy with rfl | hy
      · exact (hlt r hr hnext).trans_le (Int.ofNat_le.2 hn)
      · exact hregs y hy r hr hnext

def Coded (labels : Array (Option Nat)) (x : Instr) (c : Record) : Prop :=
  ∃ p c₀, encode p x = .ok c₀ ∧
    match x.target? with
    | none => c = c₀
    | some l => ∃ n : Nat, fetch? labels l = some (some n) ∧ c = { c₀ with n := n }

theorem resolve_ok (labels : Array (Option Nat)) (xs : List Instr)
    (hxs : ∀ x ∈ xs, ∀ l, x.target? = some l → ∃ n : Nat, fetch? labels l = some (some n))
    (place : Nat) (cs : List Record) (hlen : cs.length = xs.length)
    (hcs : ∀ (i : Nat) x, xs[i]? = some x → ∃ c p, cs[i]? = some c ∧ encode p x = .ok c) :
    ∃ ds, resolve labels place xs cs = .ok ds ∧
      ∀ (i : Nat) x, xs[i]? = some x → ∃ d, ds[i]? = some d ∧ Coded labels x d := by
  induction xs generalizing place cs with
  | nil => exact ⟨[], by rw [resolve]; simp, by simp⟩
  | cons x xs ih =>
    cases cs with
    | nil => simp at hlen
    | cons c cs =>
      obtain ⟨ds, hok, hds⟩ := ih (fun y hy => hxs y (List.mem_cons_of_mem _ hy)) (place + 1) cs
        (by simpa using hlen) fun i y hy => hcs (i + 1) y hy
      obtain ⟨c', p, hc', hp⟩ := hcs 0 x rfl
      obtain rfl : c = c' := Option.some.inj hc'
      cases ht : x.target? with
      | none =>
        refine ⟨c :: ds, by rw [resolve, ht, hok]; rfl, fun i y hy => ?_⟩
        cases i with
        | zero =>
          cases hy
          exact ⟨c, rfl, p, c, hp, by rw [ht]⟩
        | succ i => exact hds i y hy
      | some l =>
        obtain ⟨n, hn⟩ := hxs x List.mem_cons_self l ht
        refine ⟨{ c with n := n } :: ds, by rw [resolve, ht]; simp only [hn, hok]; rfl, fun i y hy => ?_⟩
        cases i with
        | zero =>
          cases hy
          exact ⟨_, rfl, p, c, hp, by rw [ht]; exact ⟨n, hn, rfl⟩⟩
        | succ i => exact hds i y hy

end Assembler

/-! ## Objects -/

/-- Every record says what its instruction says. -/
def Object.Assembled (o : Object) : Prop :=
  ∀ (pc : Nat) x, o.text[pc]? = some x → ∃ d, o.code[pc]? = some d ∧ Assembler.Coded o.labels x d

/-- The file has all registers of the code. -/
def Object.Covers (o : Object) : Prop :=
  ∀ (pc : Nat) x, o.text[pc]? = some x → ∀ r ∈ x.writes ++ x.reads, r < o.regs

theorem Assembler.assemble_ok {a : Assembler} (next : Reg → Reg) (herror : a.error = none)
    (hlast : (a.text.back?.map Instr.isTerminator).getD false = true)
    (henc : ∀ x ∈ a.text.toList, x.Encodable)
    (htargets : ∀ x ∈ a.text.toList, ∀ l, x.target? = some l → ∃ n : Nat, fetch? a.labels l = some (some n)) :
    ∃ o, a.assemble next = .ok o ∧ o.text = a.text ∧ o.labels = a.labels ∧ o.Assembled ∧
      ((∀ x ∈ a.text, ∀ r ∈ x.writes ++ x.reads, r < next r) → o.Covers) := by
  obtain ⟨cs, n, hok, hlen, -, hcs, hregs⟩ := encodeAll_ok next a.text.toList henc 0 0
  obtain ⟨ds, hok', hds⟩ := resolve_ok a.labels a.text.toList htargets 0 cs hlen hcs
  refine ⟨⟨a.name, a.text, a.positions, a.labels, n, ds.toArray⟩, ?_, rfl, rfl, ?_, ?_⟩
  · rw [assemble, herror]
    simp only [hlast, if_true, hok, hok']
  · intro pc x hx
    obtain ⟨d, hd, hcoded⟩ := hds pc x (by simpa using hx)
    exact ⟨d, by simpa using hd, hcoded⟩
  · intro hnext pc x hx r hr
    have hmem := Array.mem_of_getElem? hx
    exact hregs x (Array.mem_toList_iff.2 hmem) r hr (hnext x hmem r hr)

namespace Object

/-! ## One step for each form of instruction -/

variable {o : Object} {args : Array Word} {pc : Nat} {r : Registers} {m : Memory}
variable {x : Instr} {y : Reg} {out n : Nat} {l : Int}

theorem Covers.lt (h : o.Covers) (hr : r.size = o.regs) (hx : o.text[pc]? = some x)
    (hy : y ∈ x.writes ++ x.reads) : y < r.size :=
  hr ▸ h pc x hx y hy

section

variable (h : o.Assembled)
include h

theorem Assembled.step_write {v : Compute} (hx : o.text[pc]? = some (.compute out v)) :
    o.step args ⟨pc, r, m⟩ =
      match v.eval r m with
      | .error f => .fault f m
      | .ok w =>
        match r.write out w with
        | .error f => .fault f m
        | .ok r' => .next ⟨(pc : Int) + 1, r', m⟩ := by
  obtain ⟨d, hd, p, c, hc, hdc⟩ := h pc _ hx
  obtain rfl : d = c := hdc
  rewrite [step, fetch_natCast hd]
  cases v with
  | compare cond k a b =>
    simp only [Assembler.encode, Assembler.encodeCompute] at hc
    split at hc
    · cases hc
      rfl
    · cases hc
  | _ =>
    cases hc
    rfl

theorem Assembled.step_compute (hlt : out < r.size) {v : Compute} (hx : o.text[pc]? = some (.compute out v)) :
    o.step args ⟨pc, r, m⟩ =
      match v.eval r m with
      | .error f => .fault f m
      | .ok w => .next ⟨(pc : Int) + 1, r.setIfInBounds out w, m⟩ := by
  rw [h.step_write hx]
  cases v.eval r m with
  | error f => rfl
  | ok w => simp only [write_natCast r hlt]

theorem Assembled.step_arg (hlt : out < r.size) {n : Int} (hx : o.text[pc]? = some (.arg out n)) :
    o.step args ⟨pc, r, m⟩ =
      match fetch args n with
      | .error f => .fault f m
      | .ok w => .next ⟨(pc : Int) + 1, r.setIfInBounds out w, m⟩ := by
  obtain ⟨d, hd, p, c, hc, hdc⟩ := h pc _ hx
  obtain rfl : d = c := hdc
  cases hc
  rw [step, fetch_natCast hd]
  cases hn : fetch args n with
  | error f => simp only [value, hn]
  | ok w => simp only [value, hn, write_natCast r hlt]

theorem Assembled.step_store {k : Kind} {p x : Reg} (hx : o.text[pc]? = some (.store k p x)) :
    o.step args ⟨pc, r, m⟩ =
      match storeFrom r m k p x with
      | .error (f, m') => .fault f m'
      | .ok m' => .next ⟨(pc : Int) + 1, r, m'⟩ := by
  obtain ⟨d, hd, p, c, hc, hdc⟩ := h pc _ hx
  obtain rfl : d = c := hdc
  cases hc
  rewrite [step, fetch_natCast hd]
  rfl

theorem Assembled.step_jump (hx : o.text[pc]? = some (.jump l)) (hl : fetch? o.labels l = some (some n)) :
    o.step args ⟨pc, r, m⟩ = .next ⟨n, r, m⟩ := by
  obtain ⟨d, hd, p, c, hc, n', hn', rfl⟩ := h pc _ hx
  obtain rfl : n = n' := by simpa using hl.symm.trans hn'
  cases hc
  rw [step, fetch_natCast hd]

theorem Assembled.step_branch (hlt : y < r.size) (hx : o.text[pc]? = some (.branch l y))
    (hl : fetch? o.labels l = some (some n)) (hy : 0 ≤ y) :
    o.step args ⟨pc, r, m⟩ = .next ⟨if (r.read y).isTrue then n else (pc : Int) + 1, r, m⟩ := by
  obtain ⟨d, hd, p, c, hc, n', hn', rfl⟩ := h pc _ hx
  obtain rfl : n = n' := by simpa using hl.symm.trans hn'
  cases hc
  rw [step, fetch_natCast hd]
  simp only [Registers.fetch_eq_read hy hlt]

theorem Assembled.step_ret (hx : o.text[pc]? = some (.ret none)) :
    o.step args ⟨pc, r, m⟩ = .done Word.zero m := by
  obtain ⟨d, hd, p, c, hc, hdc⟩ := h pc _ hx
  obtain rfl : d = c := hdc
  cases hc
  rw [step, fetch_natCast hd]
  rfl

theorem Assembled.step_ret_some (hlt : y < r.size) (hx : o.text[pc]? = some (.ret (some y))) (hy : 0 ≤ y) :
    o.step args ⟨pc, r, m⟩ = .done (r.read y) m := by
  obtain ⟨d, hd, p, c, hc, hdc⟩ := h pc _ hx
  obtain rfl : d = c := hdc
  cases hc
  rw [step, fetch_natCast hd]
  simp only [Registers.fetch_eq_read hy hlt]
  rw [if_neg]
  rintro rfl
  exact absurd hy (by decide)

end

/-! ## Accesses -/

/-- The registers that the next instruction reads. -/
def readsAt (o : Object) (s : State) : List Reg :=
  ((fetch? o.text s.pc).map Instr.reads).getD []

/-- The registers that the next instruction writes. -/
def writesAt (o : Object) (s : State) : List Reg :=
  ((fetch? o.text s.pc).map Instr.writes).getD []

theorem readsAt_eq (hx : o.text[pc]? = some x) : o.readsAt ⟨pc, r, m⟩ = x.reads := by
  simp [readsAt, fetch?_natCast, hx]

theorem writesAt_eq (hx : o.text[pc]? = some x) : o.writesAt ⟨pc, r, m⟩ = x.writes := by
  simp [writesAt, fetch?_natCast, hx]

/-- The next instruction is one of those for an edge: a copy or a jump. -/
def OnEdge (o : Object) (s : State) : Prop :=
  ∃ x, fetch? o.text s.pc = some x ∧ ((∃ out a, x = .compute out (.copy a)) ∨ ∃ l, x = .jump l)

/-- The machine, with what its instructions read and write. -/
abbrev watched (o : Object) (args : Array Word) : Watched State where
  step := o.step args
  regs := State.regs
  reads := o.readsAt
  writes := o.writesAt
  OnEdge := o.OnEdge

end Object

end Codesmith.Machine
