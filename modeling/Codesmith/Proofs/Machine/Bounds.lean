import Codesmith.Proofs.Machine.Assemble

/-!
# Runs of assembled code stay inside the code and the registers

Assembling refuses code that could run past its end, that reads a negative register, or that jumps to a
label without a place. It does not look at the sign of a register that is written, and a label may be
placed behind the last instruction. `Object.Sealed` adds these two points. Every run of sealed code then
fetches records of the code only, and touches registers of its file only, however long it takes.
-/

namespace Codesmith

/-- The fault of an access outside a list. -/
def Fault.IsIndex (f : Fault) : Prop :=
  ∃ i n, f = .indexOutOfRange i n

/-! ## Faults of operations -/

namespace Word

variable {op : Op} {k : Kind} {l r x : Word} {f : Fault} {c : Cond}

theorem binary_fault (h : binary op k l r = .error f) : ¬ f.IsIndex := by
  rintro ⟨i, n, rfl⟩
  unfold binary at h
  cases hb : binaryBits op k l.bits r.bits with
  | ok z => simp [hb, Except.map] at h
  | error f =>
    simp only [hb, Except.map, Except.error.injEq] at h
    subst h
    cases op with
    | div | rem | shr =>
      simp only [binaryBits] at hb
      split_ifs at hb
      all_goals cases hb
    | _ => cases hb

theorem unary_fault (h : unary op k x = .error f) : ¬ f.IsIndex := by
  rintro ⟨i, n, rfl⟩
  cases op <;> simp [unary] at h

theorem holds_fault {α : Type} [DecidableEq α] [LT α] [LE α] [DecidableLT α] [DecidableLE α] {a b : α}
    (h : holds c a b = .error f) : ¬ f.IsIndex := by
  rintro ⟨i, n, rfl⟩
  cases c <;> simp [holds] at h

theorem compare_fault (h : compare c k l r = .error f) : ¬ f.IsIndex := by
  unfold compare at h
  split_ifs at h
  · exact holds_fault h
  · exact holds_fault h
  · exact holds_fault h

theorem convert_fault {target source : Kind} (h : convert target source x = .error f) : ¬ f.IsIndex := by
  rintro ⟨i, n, rfl⟩
  unfold convert at h
  split_ifs at h
  cases h

end Word

namespace Memory

variable {m : Memory} {k : Kind} {p : Word} {f : Fault}

theorem load_fault (h : m.load k p = .error f) : ¬ f.IsIndex := by
  rintro ⟨i, n, rfl⟩
  unfold load at h
  split at h
  · cases h
  · cases h
  · split at h
    · cases h
    · split_ifs at h

theorem storeFault?_not_index (h : m.storeFault? k p = some f) : ¬ f.IsIndex := by
  rintro ⟨i, n, rfl⟩
  unfold storeFault? at h
  split at h
  · cases h
  · cases h
  · split_ifs at h
    cases h

end Memory

/-- A computation whose registers exist is not stopped by an access outside the registers. -/
theorem Compute.eval_fault {r : Registers} {m : Memory} {v : Compute} {f : Fault}
    (hr : ∀ x ∈ v.reads, ∃ w, fetch r x = .ok w) (h : v.eval r m = .error f) : ¬ f.IsIndex := by
  cases v with
  | imm x => cases h
  | copy a =>
    obtain ⟨w, hw⟩ := hr a (by simp [reads])
    rw [eval, hw] at h
    cases h
  | binary op k a b =>
    obtain ⟨u, hu⟩ := hr a (by simp [reads])
    obtain ⟨w, hw⟩ := hr b (by simp [reads])
    rw [eval, hu, hw] at h
    exact Word.binary_fault h
  | unary op k a =>
    obtain ⟨w, hw⟩ := hr a (by simp [reads])
    rw [eval, hw] at h
    exact Word.unary_fault h
  | compare c k a b =>
    obtain ⟨u, hu⟩ := hr a (by simp [reads])
    obtain ⟨w, hw⟩ := hr b (by simp [reads])
    rw [eval, hu, hw] at h
    cases hc : Word.compare c k u w with
    | ok z => simp [bind, Except.bind, hc, pure, Except.pure] at h
    | error e =>
      simp only [bind, Except.bind, hc, Except.error.injEq] at h
      exact h ▸ Word.compare_fault hc
  | convert target source a =>
    obtain ⟨w, hw⟩ := hr a (by simp [reads])
    rw [eval, hw] at h
    exact Word.convert_fault h
  | ptrAdd n a b =>
    obtain ⟨u, hu⟩ := hr a (by simp [reads])
    obtain ⟨w, hw⟩ := hr b (by simp [reads])
    rw [eval, hu, hw] at h
    cases h
  | ptrDiff n a b =>
    obtain ⟨u, hu⟩ := hr a (by simp [reads])
    obtain ⟨w, hw⟩ := hr b (by simp [reads])
    rw [eval, hu, hw] at h
    cases h
  | load k a =>
    obtain ⟨w, hw⟩ := hr a (by simp [reads])
    rw [eval, hw] at h
    exact Memory.load_fault h

namespace Machine

/-! ## What assembled code was written from -/

namespace Assembler

variable {place : Nat} {xs : List Instr} {a : Assembler} {next : Reg → Reg}

theorem encodable_of_encode {x : Instr} {c : Record} (hreads : ∀ r ∈ x.reads, 0 ≤ r)
    (h : encode place x = .ok c) : x.Encodable := by
  refine ⟨hreads, ?_, ?_⟩
  · rintro out cond k a b rfl
    simp only [encode, encodeCompute] at h
    split at h
    · assumption
    · cases h
  · rintro type text rfl
    cases h

theorem encodable_of_encodeAll {regs : Nat} {r : List Record × Nat} (h : encodeAll next place xs regs = .ok r) :
    ∀ x ∈ xs, x.Encodable := by
  induction xs generalizing place regs r with
  | nil => simp
  | cons x xs ih =>
    rw [encodeAll] at h
    split at h
    · cases h
    rename_i hnone
    have hreads : ∀ r ∈ x.reads, 0 ≤ r := by
      intro r hr
      have := List.find?_eq_none.1 hnone r hr
      simpa using this
    split at h
    · cases h
    rename_i c hc
    split at h
    · cases h
    · rename_i cs n hok
      intro y hy
      rcases List.mem_cons.1 hy with rfl | hy
      · exact encodable_of_encode hreads hc
      · exact ih hok y hy

theorem placed_of_resolve {labels : Array (Option Nat)} {cs ds : List Record} (hlen : cs.length = xs.length)
    (h : resolve labels place xs cs = .ok ds) :
    ∀ x ∈ xs, ∀ l, x.target? = some l → ∃ n : Nat, fetch? labels l = some (some n) := by
  induction xs generalizing place cs ds with
  | nil => simp
  | cons x xs ih =>
    cases cs with
    | nil => simp at hlen
    | cons c cs =>
      have hlen' : cs.length = xs.length := by simpa using hlen
      have hrest : ∀ {g : List Record → List Record},
          (resolve labels (place + 1) xs cs).map g = .ok ds →
          ∀ y ∈ xs, ∀ l, y.target? = some l → ∃ n : Nat, fetch? labels l = some (some n) := by
        intro g hg
        cases hok : resolve labels (place + 1) xs cs with
        | error e => rw [hok] at hg; cases hg
        | ok ds' => exact ih hlen' hok
      rw [resolve] at h
      intro y hy l hl
      cases ht : x.target? with
      | none =>
        simp only [ht] at h
        rcases List.mem_cons.1 hy with rfl | hy
        · rw [ht] at hl
          cases hl
        · exact hrest h y hy l hl
      | some l' =>
        simp only [ht] at h
        split at h
        · rename_i n hn
          rcases List.mem_cons.1 hy with rfl | hy
          · obtain rfl : l' = l := Option.some.inj (ht.symm.trans hl)
            exact ⟨n, hn⟩
          · exact hrest h y hy l hl
        · cases h

/-- What assembling has checked when it succeeds. -/
theorem assemble_inv {o : Object} (h : a.assemble next = .ok o) :
    o.text = a.text ∧ o.labels = a.labels ∧ o.Assembled ∧
      ((∀ x ∈ a.text, ∀ r ∈ x.writes ++ x.reads, r < next r) → o.Covers) ∧
      (a.text.back?.map Instr.isTerminator).getD false = true ∧
      (∀ x ∈ a.text.toList, x.Encodable) ∧
      ∀ x ∈ a.text.toList, ∀ l, x.target? = some l → ∃ n : Nat, fetch? a.labels l = some (some n) := by
  have hassemble := h
  unfold assemble at h
  split at h
  · cases h
  rename_i herror
  split at h
  · rename_i hlast
    split at h
    · cases h
    rename_i cs n hok
    have henc := encodable_of_encodeAll hok
    obtain ⟨cs', n', hok', hlen, -⟩ := encodeAll_ok next a.text.toList henc 0 0
    obtain ⟨rfl, rfl⟩ := Prod.mk.inj (Except.ok.inj (hok'.symm.trans hok))
    split at h
    · cases h
    · rename_i ds hds
      have htargets := placed_of_resolve hlen hds
      obtain ⟨o', ho', htext, hlabels, hass, hcovers⟩ := assemble_ok next herror hlast henc htargets
      obtain rfl : o' = o := Except.ok.inj (ho'.symm.trans hassemble)
      exact ⟨htext, hlabels, hass, hcovers, hlast, henc, htargets⟩
  · cases h

/-! ## Code that is written by calls -/

/-- A call that writes code. -/
inductive Edit
  | newLabel
  | bindLabel (l : Int)
  | setPosition (p : Option Position)
  | emit (x : Instr)

/-- The code after a call. -/
def edit (a : Assembler) : Edit → Assembler
  | .newLabel => a.newLabel.2
  | .bindLabel l => a.bindLabel l
  | .setPosition p => a.setPosition p
  | .emit x => a.emit x

/-- The code after calls. -/
def written (name : String) (es : List Edit) : Assembler :=
  es.foldl edit { name }

/-- No label is placed beyond the end of the code. -/
def LabelsFit (a : Assembler) : Prop :=
  ∀ (l : Int) (n : Nat), fetch? a.labels l = some (some n) → n ≤ a.text.size

theorem LabelsFit.edit (h : a.LabelsFit) (e : Edit) : (a.edit e).LabelsFit := by
  cases e with
  | newLabel =>
    intro l n hl
    simp only [Assembler.edit, newLabel, fetch?_push] at hl
    split at hl
    · cases hl
    · exact h l n hl
  | bindLabel l =>
    simp only [Assembler.edit, bindLabel]
    split
    · exact h
    · exact h
    · rename_i hnone
      obtain ⟨k, rfl, hk⟩ := fetch?_eq_some_iff.1 hnone
      intro l' n hl
      obtain ⟨k', rfl, hk'⟩ := fetch?_eq_some_iff.1 hl
      simp only [Int.toNat_natCast, Array.getElem?_setIfInBounds] at hk'
      split at hk'
      · split at hk'
        · simp only [Option.some.injEq] at hk'
          exact hk'.ge
        · cases hk'
      · exact h k' n hk'
  | setPosition p => exact h
  | emit x =>
    intro l n hl
    have := h l n hl
    simp only [Assembler.edit, Assembler.emit, Array.size_push]
    omega

theorem labelsFit_written (name : String) (es : List Edit) : (written name es).LabelsFit := by
  have hrun : ∀ (es : List Edit) (a : Assembler), a.LabelsFit → (es.foldl edit a).LabelsFit := by
    intro es
    induction es with
    | nil => exact fun a h => h
    | cons e es ih => exact fun a h => ih _ (h.edit e)
  refine hrun es _ fun l n hl => ?_
  obtain ⟨k, -, hk⟩ := fetch?_eq_some_iff.1 hl
  simp at hk

end Assembler

/-! ## Accesses of a record -/

namespace Record

def reads (c : Record) : List Reg :=
  match c.opcode with
  | .imm | .arg | .jump => []
  | .mov | .unary | .convert | .load | .branch => [c.a]
  | .binary | .compare | .ptrAdd | .ptrDiff | .store => [c.a, c.b]
  | .ret => if c.a = -1 then [] else [c.a]

def writes (c : Record) : List Reg :=
  match c.opcode with
  | .store | .jump | .branch | .ret => []
  | _ => [c.d]

end Record

/-- A record touches the registers of its instruction. -/
theorem Assembler.Coded.accesses {labels : Array (Option Nat)} {x : Instr} {c : Record}
    (h : Coded labels x c) (hx : ∀ r ∈ x.reads, 0 ≤ r) :
    c.reads = x.reads ∧ c.writes = x.writes := by
  obtain ⟨p, c0, hc, ht⟩ := h
  cases x with
  | compute out v =>
    obtain rfl : c = c0 := ht
    cases v with
    | compare cond k a b =>
      simp only [encode, encodeCompute] at hc
      split at hc
      · cases hc
        exact ⟨rfl, rfl⟩
      · cases hc
    | _ =>
      cases hc
      exact ⟨rfl, rfl⟩
  | arg out n =>
    obtain rfl : c = c0 := ht
    cases hc
    exact ⟨rfl, rfl⟩
  | store k p x =>
    obtain rfl : c = c0 := ht
    cases hc
    exact ⟨rfl, rfl⟩
  | jump l =>
    obtain ⟨n, -, rfl⟩ := ht
    cases hc
    exact ⟨rfl, rfl⟩
  | branch l y =>
    obtain ⟨n, -, rfl⟩ := ht
    cases hc
    exact ⟨rfl, rfl⟩
  | ret y =>
    cases y with
    | none =>
      obtain rfl : c = c0 := ht
      cases hc
      exact ⟨rfl, rfl⟩
    | some y =>
      obtain rfl : c = c0 := ht
      cases hc
      have hne : y ≠ -1 := by
        rintro rfl
        exact absurd (hx _ (List.mem_singleton.2 rfl)) (by decide)
      exact ⟨by simp [Record.reads, Instr.reads, hne], rfl⟩
  | foreign type text => cases hc

/-! ## Sealed code -/

namespace Object

variable {pc : Nat} {x : Instr}

/-- The next step executes a record of the code, touches registers of the file only, and is not stopped
by an access outside a list. -/
structure InBounds (o : Object) (args : Array Word) (s : State) : Prop where
  fetched : ∃ c, fetch o.code s.pc = .ok c ∧ ∀ r ∈ c.reads ++ c.writes, 0 ≤ r ∧ r < s.regs.size
  stopped : ∀ f m, o.step args s = .fault f m → ¬ f.IsIndex

/-- Assembled code that writes no negative register, has a file for all its registers and jumps to
instructions only. -/
structure Sealed (o : Object) (args : Array Word) : Prop where
  assembled : o.Assembled
  covers : o.Covers
  ended : ∃ x, o.text.back? = some x ∧ x.isTerminator = true
  accesses : ∀ x ∈ o.text, ∀ r ∈ x.reads ++ x.writes, 0 ≤ r
  targets : ∀ x ∈ o.text, ∀ l, x.target? = some l →
    ∃ n : Nat, fetch? o.labels l = some (some n) ∧ n < o.text.size
  known : ∀ type text, .foreign type text ∉ o.text
  args : ∀ (out : Reg) (n : Int), .arg out n ∈ o.text → 0 ≤ n ∧ n < args.size

/-- Control is at an instruction, and no register is missing. -/
structure Within (o : Object) (s : State) : Prop where
  pc : ∃ n : Nat, s.pc = n ∧ n < o.text.size
  regs : s.regs.size = o.regs

variable {o : Object} {args : Array Word} {s s' : State}

section

variable (h : o.Sealed args)
include h

theorem Sealed.within_start (m : Memory) : o.Within (o.start m) := by
  obtain ⟨x, hx, -⟩ := h.ended
  refine ⟨⟨0, rfl, ?_⟩, Array.size_replicate⟩
  by_contra hsize
  rw [Array.eq_empty_of_size_eq_zero (Nat.le_zero.1 (Nat.le_of_not_lt hsize))] at hx
  cases hx

/-- An instruction that goes on to the next one is not the last. -/
theorem Sealed.succ_lt (hx : o.text[pc]? = some x) (hgo : x.isTerminator = false) : pc + 1 < o.text.size := by
  obtain ⟨y, hy, hterm⟩ := h.ended
  have hlt := (Array.getElem?_eq_some_iff.1 hx).1
  by_contra hlast
  have hpc : pc = o.text.size - 1 := by omega
  rw [Array.back?_eq_getElem?, ← hpc, hx] at hy
  rw [← Option.some.inj hy, hgo] at hterm
  cases hterm

theorem Sealed.fetch_ok (hx : o.text[pc]? = some x) {r : Registers} (hr : r.size = o.regs) :
    ∀ y ∈ x.reads, ∃ w, fetch r y = .ok w := by
  intro y hy
  have h0 := h.accesses x (Array.mem_of_getElem? hx) y (List.mem_append_left _ hy)
  exact ⟨_, Registers.fetch_eq_read h0 (h.covers.lt hr hx (List.mem_append_right _ hy))⟩

/-- What one step of sealed code does: it is not stopped by an access outside a list, and it goes on
inside the code. -/
theorem Sealed.step (hs : o.Within s) : (∀ f m, o.step args s = .fault f m → ¬ f.IsIndex) ∧
      ∀ s', o.step args s = .next s' → o.Within s' := by
  obtain ⟨_, r, m⟩ := s
  obtain ⟨⟨pc, rfl, hlt⟩, hr⟩ := hs
  have hx := Array.getElem?_eq_getElem hlt
  generalize o.text[pc] = x at hx
  have hmem := Array.mem_of_getElem? hx
  have hfetch := h.fetch_ok hx hr
  have hgo : x.isTerminator = false → ∀ (r' : Registers) (m' : Memory), r'.size = o.regs →
      o.Within ⟨(pc : Int) + 1, r', m'⟩ := fun ht r' m' hr' =>
    ⟨⟨pc + 1, rfl, h.succ_lt hx ht⟩, hr'⟩
  have hlt : ∀ y ∈ x.writes ++ x.reads, y < r.size := fun y => h.covers.lt hr hx
  have hout : ∀ out ∈ x.writes, ∃ n : Nat, out = n ∧ n < r.size := by
    intro out ho
    obtain ⟨n, rfl⟩ := Int.eq_ofNat_of_zero_le (h.accesses x hmem out (List.mem_append_right _ ho))
    exact ⟨n, rfl, Int.ofNat_lt.1 (hlt n (List.mem_append_left _ ho))⟩
  cases x with
  | compute out v =>
    obtain ⟨n, rfl, hn⟩ := hout out (by simp [Instr.writes])
    rw [h.assembled.step_compute hn hx]
    cases hv : v.eval r m with
    | error f =>
      refine ⟨fun f' m' hf => ?_, by simp⟩
      obtain ⟨rfl, -⟩ := Step.fault.inj hf
      exact Compute.eval_fault hfetch hv
    | ok w =>
      refine ⟨by simp, fun s' hs' => ?_⟩
      obtain rfl := Step.next.inj hs'
      exact hgo rfl _ _ ((Array.size_setIfInBounds).trans hr)
  | arg out n =>
    obtain ⟨k, rfl, hk⟩ := hout out (by simp [Instr.writes])
    obtain ⟨h0, h1⟩ := h.args _ n hmem
    have hn : fetch args n = .ok (Registers.read args n) := Registers.fetch_eq_read h0 h1
    rw [h.assembled.step_arg hk hx, hn]
    refine ⟨by simp, fun s' hs' => ?_⟩
    obtain rfl := Step.next.inj hs'
    exact hgo rfl _ _ ((Array.size_setIfInBounds).trans hr)
  | store k p y =>
    obtain ⟨u, hu⟩ := hfetch p (by simp [Instr.reads])
    obtain ⟨w, hw⟩ := hfetch y (by simp [Instr.reads])
    rw [h.assembled.step_store hx, storeFrom, hu, hw]
    cases hf : m.storeFault? k u with
    | some f =>
      simp only [hf]
      refine ⟨fun f' m' hf' => ?_, by simp⟩
      obtain ⟨rfl, -⟩ := Step.fault.inj hf'
      exact Memory.storeFault?_not_index hf
    | none =>
      simp only [hf]
      refine ⟨by simp, fun s' hs' => ?_⟩
      obtain rfl := Step.next.inj hs'
      exact hgo rfl _ _ hr
  | jump l =>
    obtain ⟨n, hn, hlt'⟩ := h.targets _ hmem l rfl
    rw [h.assembled.step_jump hx hn]
    refine ⟨by simp, fun s' hs' => ?_⟩
    obtain rfl := Step.next.inj hs'
    exact ⟨⟨n, rfl, hlt'⟩, hr⟩
  | branch l y =>
    obtain ⟨n, hn, hlt'⟩ := h.targets _ hmem l rfl
    have h0 := h.accesses _ hmem y (by simp [Instr.reads])
    rw [h.assembled.step_branch (hlt y (by simp [Instr.reads])) hx hn h0]
    refine ⟨by simp, fun s' hs' => ?_⟩
    obtain rfl := Step.next.inj hs'
    split
    · exact ⟨⟨n, rfl, hlt'⟩, hr⟩
    · exact hgo rfl _ _ hr
  | ret y =>
    cases y with
    | none =>
      rw [h.assembled.step_ret hx]
      exact ⟨by simp, by simp⟩
    | some y =>
      have h0 := h.accesses _ hmem y (by simp [Instr.reads])
      rw [h.assembled.step_ret_some (hlt y (by simp [Instr.reads])) hx h0]
      exact ⟨by simp, by simp⟩
  | foreign type text => exact absurd hmem (h.known type text)

theorem Sealed.within_walks {k : Nat} (hs : o.Within s) (hw : Walks (o.step args) k s s') : o.Within s' := by
  induction hw with
  | refl => exact hs
  | next hstep _ ih => exact ih ((h.step hs).2 _ hstep)

theorem Sealed.inBounds (hs : o.Within s) : o.InBounds args s := by
  refine ⟨?_, (h.step hs).1⟩
  obtain ⟨_, r, m⟩ := s
  obtain ⟨⟨pc, rfl, hlt⟩, hr⟩ := hs
  have hx := Array.getElem?_eq_getElem hlt
  generalize o.text[pc] = x at hx
  obtain ⟨c, hc, hcoded⟩ := h.assembled pc x hx
  have hacc := h.accesses x (Array.mem_of_getElem? hx)
  obtain ⟨hreads, hwrites⟩ := hcoded.accesses fun y hy => hacc y (List.mem_append_left _ hy)
  refine ⟨c, fetch_natCast hc, fun y hy => ?_⟩
  rw [hreads, hwrites] at hy
  refine ⟨hacc y hy, h.covers.lt hr hx ?_⟩
  rcases List.mem_append.1 hy with hy | hy
  · exact List.mem_append_right _ hy
  · exact List.mem_append_left _ hy

end

end Object

/-! ## Every run -/

open Assembler Object

theorem lt_nextReg {r : Reg} (h : r ≠ lastReg) : r < nextReg r := by
  rw [nextReg, if_neg h]
  exact Int.lt_succ r

/-- Code that was assembled runs in bounds, whatever calls wrote it, if no instruction writes a negative
register or names the last one, and no jump leads to a label behind the last instruction. -/
theorem run_in_bounds (name : String) (es : List Edit) {o : Object}
    (ho : (written name es).assemble = .ok o) (hwrites : ∀ x ∈ o.text, ∀ r ∈ x.writes, 0 ≤ r)
    (hregs : ∀ x ∈ o.text, ∀ r ∈ x.writes ++ x.reads, r ≠ lastReg)
    (hlabels : ∀ x ∈ o.text, ∀ l, x.target? = some l → fetch? o.labels l ≠ some (some o.text.size))
    (args : Array Word) (hargs : ∀ (out : Reg) (n : Int), .arg out n ∈ o.text → 0 ≤ n ∧ n < args.size) (m : Memory)
    (k : Nat) (s : State) (hs : Walks (o.step args) k (o.start m) s) : o.InBounds args s := by
  obtain ⟨htext, hlab, hass, hcovers, hlast, henc, htargets⟩ := assemble_inv ho
  have hfit := labelsFit_written name es
  rw [← htext] at hlast henc htargets
  simp only [Array.mem_toList_iff] at henc htargets
  have hsealed : o.Sealed args := {
    assembled := hass
    covers := hcovers fun x hx r hr => lt_nextReg (hregs x (htext ▸ hx) r hr)
    ended := by
      cases hback : o.text.back? with
      | none => rw [hback] at hlast; cases hlast
      | some x =>
        rw [hback] at hlast
        exact ⟨x, rfl, hlast⟩
    accesses := fun x hx r hr => by
      rcases List.mem_append.1 hr with hr | hr
      · exact (henc x hx).reads r hr
      · exact hwrites x hx r hr
    targets := fun x hx l hl => by
      obtain ⟨n, hn⟩ := htargets x hx l hl
      have hle := hfit l n hn
      rw [← htext] at hle
      rw [← hlab] at hn
      refine ⟨n, hn, lt_of_le_of_ne hle ?_⟩
      rintro rfl
      exact hlabels x hx l hl hn
    known := fun type text hmem => (henc _ hmem).known type text rfl
    args := hargs }
  exact hsealed.inBounds (hsealed.within_walks (hsealed.within_start m) hs)

/-- Code that counts its argument down to zero. -/
def countDown : List Edit :=
  [.newLabel, .emit (.arg 0 0), .emit (.compute 1 (.imm 1)), .bindLabel 0,
    .emit (.compute 0 (.binary .sub (.int .w64 false) 0 1)), .emit (.branch 0 0), .emit (.ret (some 0))]

theorem run_in_bounds_countDown : ∃ o, (written "down" countDown).assemble = .ok o ∧
    ∀ k s, Walks (o.step #[.ofBits 3]) k (o.start .empty) s → o.InBounds #[.ofBits 3] s := by
  have htext : (written "down" countDown).text = #[.arg 0 0, .compute 1 (.imm 1),
      .compute 0 (.binary .sub (.int .w64 false) 0 1), .branch 0 0, .ret (some 0)] := rfl
  have hlabels : (written "down" countDown).labels = #[some 2] := rfl
  refine ⟨_, rfl, run_in_bounds "down" countDown rfl ?_ ?_ ?_ _ ?_ _⟩
  · simp [htext, Instr.writes]
  · simp [htext, Instr.writes, Instr.reads, Compute.reads, lastReg]
  · simp [htext, hlabels, Instr.target?, fetch?]
  · simp [htext]

/-- The three points that assembling leaves open: a negative register is written, the number after the
last register is negative so that it is not counted, and control goes on behind the last instruction. -/
theorem assembled_out_of_bounds : (∀ r, r = -1 ∨ r = lastReg →
      ∃ o, (written "f" [.emit (.compute r (.imm 7)), .emit (.ret none)]).assemble = .ok o ∧
        ¬ o.InBounds #[] (o.start .empty)) ∧
    ∃ o s, (written "f" [.newLabel, .emit (.jump 0), .bindLabel 0]).assemble = .ok o ∧
      Walks (o.step #[]) 1 (o.start .empty) s ∧ ¬ o.InBounds #[] s := by
  refine ⟨?_, _, ⟨1, #[], .empty⟩, rfl, .one rfl, fun h => ?_⟩
  · rintro r (rfl | rfl)
    · exact ⟨_, rfl, fun h => h.stopped (.indexOutOfRange (-1) 0) .empty rfl ⟨_, _, rfl⟩⟩
    · exact ⟨_, rfl, fun h => h.stopped (.indexOutOfRange lastReg 0) .empty rfl ⟨_, _, rfl⟩⟩
  · exact h.stopped (.indexOutOfRange 1 1) .empty rfl ⟨_, _, rfl⟩

end Machine

end Codesmith
