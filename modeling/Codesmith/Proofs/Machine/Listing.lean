import Codesmith.Proofs.Machine.Bounds

/-!
# Assembled code runs as it is written

`Listing` is code as it is written: instructions in order, and the places where labels were bound. It is
executed directly, one instruction after the other, and a jump goes on at the instruction where its label
was bound. Nothing is encoded, so this is what the records of assembled code have to agree with. They
do in every state, also where a run leaves the code or writes a register that does not exist.
-/

namespace Codesmith.Machine

/-! ## Code as it is written -/

/-- Instructions, and the place of each label. -/
structure Listing where
  text : Array Instr
  place? : Int → Option Nat

namespace Listing

open Object (State)

/-- Go on at a label. A label without a place is no place of the code. -/
def goTo (t : Listing) (l : Int) (r : Registers) (m : Memory) : Step State :=
  match t.place? l with
  | some n => .next ⟨n, r, m⟩
  | none => .fault .invalidAddress m

/-- Put a word into a register and go on with the next instruction. -/
def put (pc : Int) (r : Registers) (m : Memory) (out : Reg) (w : Except Fault Word) : Step State :=
  match w with
  | .error f => .fault f m
  | .ok w =>
    match r.write out w with
    | .error f => .fault f m
    | .ok r' => .next ⟨pc + 1, r', m⟩

/-- What an instruction does at a place. -/
def exec (t : Listing) (args : Array Word) (pc : Int) (r : Registers) (m : Memory) :
    Instr → Step State
  | .compute out v => put pc r m out (v.eval r m)
  | .arg out n => put pc r m out (fetch args n)
  | .store k p x =>
    match storeFrom r m k p x with
    | .error (f, m') => .fault f m'
    | .ok m' => .next ⟨pc + 1, r, m'⟩
  | .jump l => t.goTo l r m
  | .branch l c =>
    match fetch r c with
    | .error f => .fault f m
    | .ok w => if w.isTrue then t.goTo l r m else .next ⟨pc + 1, r, m⟩
  | .ret none => .done .zero m
  | .ret (some x) =>
    match fetch r x with
    | .error f => .fault f m
    | .ok w => .done w m
  | .foreign _ _ => .fault .invalidAddress m

/-- One step: the instruction at the program counter is executed. -/
def step (t : Listing) (args : Array Word) (s : State) : Step State :=
  match fetch t.text s.pc with
  | .error f => .fault f s.memory
  | .ok x => t.exec args s.pc s.regs s.memory x

/-- The state in which a run starts: there are just the registers that the instructions name. -/
def start (t : Listing) (m : Memory) : State :=
  ⟨0, Array.replicate (Assembler.registerBound nextReg 0
    (t.text.toList.flatMap fun x => x.writes ++ x.reads)) Word.zero, m⟩

/-- The outcome of at most so many steps. -/
def run (t : Listing) (fuel : Nat) (args : Array Word) (m : Memory) : Outcome Word :=
  iterate (t.step args) fuel (t.start m)

end Listing

namespace Assembler

variable {name : String} {xs : List Instr} {place : Nat}

/-- The instruction that a call writes. -/
def Edit.instr? : Edit → Option Instr
  | .emit x => some x
  | _ => none

/-- The number of instructions that calls write before a label is bound. -/
def boundAt? (l : Int) : List Edit → Option Nat
  | [] => none
  | .bindLabel k :: es => if k = l then some 0 else boundAt? l es
  | .emit _ :: es => (boundAt? l es).map (· + 1)
  | .newLabel :: es => boundAt? l es
  | .setPosition _ :: es => boundAt? l es

/-- What calls write. -/
def listing (es : List Edit) : Listing where
  text := (es.filterMap Edit.instr?).toArray
  place? l := boundAt? l es

/-! ## Labels -/

variable {a : Assembler} {es : List Edit} {l : Int} {n : Nat}

theorem error_edit (h : a.error.isSome = true) (e : Edit) : (a.edit e).error.isSome = true := by
  cases e with
  | bindLabel l =>
    simp only [edit, bindLabel]
    split
    · simp [fail]
    · simp [fail]
    · exact h
  | _ => exact h

theorem error_foldl (h : a.error.isSome = true) (es : List Edit) : (es.foldl edit a).error.isSome = true := by
  induction es generalizing a with
  | nil => exact h
  | cons e es ih => exact ih (error_edit h e)

/-- What is written without an error was without an error before. -/
theorem error_eq_none_of_foldl (h : (es.foldl edit a).error = none) : a.error = none := by
  by_contra ha
  have := error_foldl (Option.isSome_iff_ne_none.2 ha) es
  rw [h] at this
  cases this

theorem text_bindLabel (a : Assembler) (l : Int) : (a.edit (.bindLabel l)).text = a.text := by
  simp only [edit, bindLabel]
  split <;> rfl

theorem text_foldl (a : Assembler) (es : List Edit) :
    (es.foldl edit a).text = a.text ++ (es.filterMap Edit.instr?).toArray := by
  induction es generalizing a with
  | nil => simp
  | cons e es ih =>
    rw [List.foldl_cons, ih]
    cases e with
    | newLabel => rfl
    | bindLabel l => rw [text_bindLabel, List.filterMap_cons_none rfl]
    | setPosition p => rfl
    | emit x =>
      have hcons : (Edit.emit x :: es).filterMap Edit.instr? = x :: es.filterMap Edit.instr? := rfl
      simp [hcons, edit, emit]

/-- A label that is bound without an error gets the place of the next instruction. -/
theorem bound_bindLabel (h : (a.edit (.bindLabel l)).error = none) :
    fetch? (a.edit (.bindLabel l)).labels l = some (some a.text.size) := by
  simp only [edit, bindLabel] at h ⊢
  split at h
  · simp [fail] at h
  · simp [fail] at h
  · rename_i hnone
    obtain ⟨i, rfl, hi⟩ := fetch?_eq_some_iff.1 hnone
    have hlt := (Array.getElem?_eq_some_iff.1 hi).1
    rw [fetch?_natCast, Int.toNat_natCast, Array.getElem?_setIfInBounds_self_of_lt hlt]

/-- A label that was bound can be bound no more, and stays where it is. -/
theorem bound_foldl (hl : fetch? a.labels l = some (some n)) (h : (es.foldl edit a).error = none) :
    fetch? (es.foldl edit a).labels l = some (some n) ∧ boundAt? l es = none := by
  induction es generalizing a with
  | nil => exact ⟨hl, rfl⟩
  | cons e es ih =>
    have herr : (a.edit e).error = none := error_eq_none_of_foldl h
    cases e with
    | newLabel =>
      refine ih (a := a.newLabel.2) ?_ h
      rw [newLabel, fetch?_push, if_neg, hl]
      have := fetch?_isSome_iff.1 (show (fetch? a.labels l).isSome = true by rw [hl]; rfl)
      exact this.2.ne
    | bindLabel k =>
      simp only [edit, bindLabel] at herr
      have hk : k ≠ l := by
        rintro rfl
        rw [hl] at herr
        simp [fail] at herr
      rw [boundAt?, if_neg hk]
      refine ih ?_ h
      simp only [edit, bindLabel]
      split
      · exact hl
      · exact hl
      · rename_i hnone
        obtain ⟨i, rfl, hi⟩ := fetch?_eq_some_iff.1 hnone
        obtain ⟨j, rfl, hj⟩ := fetch?_eq_some_iff.1 hl
        have hij : i ≠ j := fun hij => hk (congrArg Nat.cast hij)
        rw [fetch?_natCast, Int.toNat_natCast, Array.getElem?_setIfInBounds_ne hij, hj]
    | setPosition p => exact ih (a := a.setPosition p) hl h
    | emit x =>
      obtain ⟨hl', hb⟩ := ih (a := a.emit x) hl h
      exact ⟨hl', by rw [boundAt?, hb]; rfl⟩

/-- A label without a place gets the place where it is bound, if it is. -/
theorem unbound_foldl (hl : ∀ n, fetch? a.labels l ≠ some (some n)) (h : (es.foldl edit a).error = none) :
    (fetch? (es.foldl edit a).labels l).join = (boundAt? l es).map (a.text.size + ·) := by
  induction es generalizing a with
  | nil =>
    show (fetch? a.labels l).join = none
    cases hf : fetch? a.labels l with
    | none => rfl
    | some p =>
      cases p with
      | none => rfl
      | some n => exact absurd hf (hl n)
  | cons e es ih =>
    have herr : (a.edit e).error = none := error_eq_none_of_foldl h
    cases e with
    | newLabel =>
      refine ih (a := a.newLabel.2) (fun n => ?_) h
      rw [newLabel, fetch?_push]
      split
      · simp
      · exact hl n
    | bindLabel k =>
      rw [boundAt?]
      by_cases hk : k = l
      · subst hk
        rw [List.foldl_cons, (bound_foldl (bound_bindLabel herr) h).1, if_pos rfl]
        rfl
      rw [if_neg hk]
      rw [← text_bindLabel a k]
      refine ih (fun n => ?_) h
      simp only [edit, bindLabel]
      split
      · exact hl n
      · exact hl n
      · rename_i hnone
        obtain ⟨i, rfl, -⟩ := fetch?_eq_some_iff.1 hnone
        intro hf
        obtain ⟨j, rfl, hj⟩ := fetch?_eq_some_iff.1 hf
        have hij : i ≠ j := fun hij => hk (congrArg Nat.cast hij)
        rw [Int.toNat_natCast, Array.getElem?_setIfInBounds_ne hij] at hj
        exact hl n (fetch?_eq_some_iff.2 ⟨j, rfl, hj⟩)
    | setPosition p => exact ih (a := a.setPosition p) hl h
    | emit x =>
      have hrest := ih (a := a.emit x) hl h
      rw [List.foldl_cons, show a.edit (.emit x) = a.emit x from rfl, hrest, boundAt?, Option.map_map]
      refine congrArg (Option.map · _) (funext fun k => ?_)
      show (a.text.push x).size + k = a.text.size + (k + 1)
      rw [Array.size_push]
      omega

/-- Where calls that make no error leave the labels. -/
theorem label_written (h : (written name es).error = none) (l : Int) :
    (fetch? (written name es).labels l).join = boundAt? l es := by
  have hnew : ∀ n, fetch? ({ name } : Assembler).labels l ≠ some (some n) := by
    intro n hf
    obtain ⟨k, -, hk⟩ := fetch?_eq_some_iff.1 hf
    simp at hk
  rw [written, unbound_foldl hnew h]
  simp

/-- A label is bound by one call at most, so its place is where that call stands. -/
theorem boundAt?_of_mem {pre post : List Edit} (h : (written name (pre ++ .bindLabel l :: post)).error = none) :
    boundAt? l (pre ++ .bindLabel l :: post) = some (pre.filterMap Edit.instr?).length := by
  set a := written name pre with ha
  have hsplit : written name (pre ++ .bindLabel l :: post) = post.foldl edit (a.edit (.bindLabel l)) := by
    rw [written, List.foldl_append]
    rfl
  rw [← label_written h, hsplit]
  rw [hsplit] at h
  rw [(bound_foldl (bound_bindLabel (error_eq_none_of_foldl h)) h).1, ha, written, text_foldl]
  simp

/-! ## Records -/

theorem regs_of_encodeAll {next : Reg → Reg} {regs : Nat} {r : List Record × Nat} (h : encodeAll next place xs regs = .ok r) :
    r.2 = registerBound next regs (xs.flatMap fun x => x.writes ++ x.reads) ∧ r.1.length = xs.length := by
  induction xs generalizing place regs r with
  | nil =>
    cases h
    exact ⟨rfl, rfl⟩
  | cons x xs ih =>
    rw [encodeAll] at h
    split at h
    · cases h
    split at h
    · cases h
    split at h
    · cases h
    rename_i cs n hok
    cases h
    obtain ⟨hn, hlen⟩ := ih hok
    refine ⟨hn.trans ?_, congrArg Nat.succ hlen⟩
    simp only [registerBound, List.flatMap_cons, List.foldl_append]

theorem length_of_resolve {labels : Array (Option Nat)} {cs ds : List Record} (hlen : cs.length = xs.length)
    (h : resolve labels place xs cs = .ok ds) : ds.length = xs.length := by
  induction xs generalizing place cs ds with
  | nil =>
    rw [resolve] at h
    · cases h
      rfl
    · simp
  | cons x xs ih =>
    cases cs with
    | nil => simp at hlen
    | cons c cs =>
      have hmap : ∀ {g : Record}, (resolve labels (place + 1) xs cs).map (g :: ·) = .ok ds →
          ds.length = (x :: xs).length := by
        intro g hg
        cases hok : resolve labels (place + 1) xs cs with
        | error e => rw [hok] at hg; cases hg
        | ok ds' =>
          rw [hok] at hg
          cases hg
          exact congrArg Nat.succ (ih (by simpa using hlen) hok)
      rw [resolve] at h
      split at h
      · exact hmap h
      · split at h
        · exact hmap h
        · cases h

/-- What assembled code keeps of what was written. -/
theorem assemble_sizes {o : Object} (h : a.assemble = .ok o) : a.error = none ∧ o.code.size = a.text.size ∧
      o.regs = registerBound nextReg 0 (a.text.toList.flatMap fun x => x.writes ++ x.reads) := by
  unfold assemble at h
  split at h
  · cases h
  rename_i herror
  split at h
  · split at h
    · cases h
    rename_i records regs hok
    obtain ⟨hregs, hlen⟩ := regs_of_encodeAll hok
    split at h
    · cases h
    rename_i code hcode
    cases h
    exact ⟨herror, by simpa using length_of_resolve hlen hcode, hregs⟩
  · cases h

end Assembler

/-! ## One step -/

open Assembler Object

/-- A record does what its instruction says, in every state. -/
theorem Object.Assembled.step_eq {o : Object} (h : o.Assembled) {t : Listing} {args : Array Word}
    {pc : Nat} {r : Registers} {m : Memory} {x : Instr} (hx : o.text[pc]? = some x)
    (henc : x.Encodable)
    (hplace : ∀ l n, x.target? = some l → fetch? o.labels l = some (some n) → t.place? l = some n) :
    o.step args ⟨pc, r, m⟩ = t.exec args pc r m x := by
  obtain ⟨d, hd, p, c, hc, hdc⟩ := h pc x hx
  rw [Object.step, fetch_natCast hd]
  cases x with
  | compute out v =>
    obtain rfl : d = c := hdc
    cases v with
    | compare cond k a b =>
      rw [encode, encodeCompute, if_pos (henc.cond out cond k a b rfl)] at hc
      cases hc
      rfl
    | _ =>
      cases hc
      rfl
  | arg out n =>
    obtain rfl : d = c := hdc
    cases hc
    rfl
  | store k p y =>
    obtain rfl : d = c := hdc
    cases hc
    rfl
  | jump l =>
    obtain ⟨n, hn, rfl⟩ := hdc
    cases hc
    simp only [Listing.exec, Listing.goTo, hplace l n rfl hn]
  | branch l y =>
    obtain ⟨n, hn, rfl⟩ := hdc
    cases hc
    simp only [Listing.exec, Listing.goTo, hplace l n rfl hn]
    cases fetch r y with
    | error f => rfl
    | ok w =>
      simp only
      split <;> rfl
  | ret y =>
    obtain rfl : d = c := hdc
    cases y with
    | none =>
      cases hc
      rfl
    | some y =>
      cases hc
      have hne : y ≠ -1 := by
        rintro rfl
        exact absurd (henc.reads _ (List.mem_singleton.2 rfl)) (by decide)
      exact if_neg hne
  | foreign type text => exact absurd rfl (henc.known type text)

/-- Where there is no instruction there is no record, and the fault is the same. -/
theorem fetch_error_of_size {α β : Type} {xs : Array α} {ys : Array β} (h : ys.size = xs.size) {i : Int}
    {f : Fault} (hf : fetch xs i = .error f) : fetch ys i = .error f := by
  cases i with
  | ofNat n =>
    cases hx : xs[n]? with
    | some x =>
      rw [fetch, hx] at hf
      cases hf
    | none =>
      have hy : ys[n]? = none := by
        rw [Array.getElem?_eq_none_iff] at hx ⊢
        omega
      rw [fetch, hx] at hf
      rw [fetch, hy, h]
      exact congrArg _ (Except.error.inj hf)
  | negSucc n =>
    rw [fetch] at hf ⊢
    rw [h]
    exact congrArg _ (Except.error.inj hf)

/-! ## Every run -/

/-- Assembling is faithful: in every state the records of assembled code do what the instructions do
that calls have written, where a jump goes on at the instruction at which its label was bound. So all
runs from the same arguments and memory take the same steps, and end alike if they end. -/
theorem run_eq_listing (name : String) (es : List Edit) {o : Object}
    (ho : (written name es).assemble = .ok o) (args : Array Word) (m : Memory) :
    (listing es).text = o.text ∧
    (∀ pre l post, es = pre ++ .bindLabel l :: post →
      (listing es).place? l = some (pre.filterMap Edit.instr?).length) ∧
    (∀ s, o.step args s = (listing es).step args s) ∧
    (∀ k s, Walks (o.step args) k (o.start m) s ↔ Walks ((listing es).step args) k ((listing es).start m) s) ∧
    ∀ fuel, o.run fuel args m = (listing es).run fuel args m := by
  obtain ⟨htext, hlabels, hass, -, -, henc, -⟩ := assemble_inv ho
  obtain ⟨herror, hsize, hregs⟩ := assemble_sizes ho
  have hlisted : (listing es).text = o.text := by
    rw [htext, written, text_foldl]
    exact (Array.empty_append).symm
  have hplace : ∀ l n, fetch? o.labels l = some (some n) → (listing es).place? l = some n := by
    intro l n hl
    rw [hlabels] at hl
    exact (label_written herror l).symm.trans (by rw [hl]; rfl)
  have hstep : ∀ s, o.step args s = (listing es).step args s := by
    rintro ⟨pc, r, m⟩
    rw [Listing.step, hlisted]
    cases hf : fetch o.text pc with
    | error f => rw [Object.step, fetch_error_of_size (hsize.trans (congrArg Array.size htext.symm)) hf]
    | ok x =>
      obtain ⟨n, rfl, hx⟩ := fetch?_eq_some_iff.1 (fetch_eq_ok_iff.1 hf)
      refine hass.step_eq hx (henc x ?_) fun l n _ => hplace l n
      rw [Array.mem_toList_iff, ← htext]
      exact Array.mem_of_getElem? hx
  have hstart : o.start m = (listing es).start m := by
    rw [Object.start, Listing.start, hlisted, htext, hregs]
  have heq : o.step args = (listing es).step args := funext hstep
  refine ⟨hlisted, ?_, hstep, fun k s => by rw [heq, hstart], fun fuel => ?_⟩
  · rintro pre l post rfl
    exact boundAt?_of_mem herror
  · rw [Object.run, Listing.run, heq, hstart]

/-- The code that counts down, run as it is written. -/
theorem run_eq_listing_countDown : ∃ o, (written "down" countDown).assemble = .ok o ∧
    (listing countDown).place? 0 = some 2 ∧
      o.run 20 #[.ofBits 3] .empty = (listing countDown).run 20 #[.ofBits 3] .empty ∧
        (listing countDown).run 20 #[.ofBits 3] .empty = .done .zero .empty := by
  refine ⟨_, rfl, rfl, ?_, by decide +kernel⟩
  exact (run_eq_listing "down" countDown rfl #[.ofBits 3] .empty).2.2.2.2 20

end Codesmith.Machine
