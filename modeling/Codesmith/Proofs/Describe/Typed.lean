import Codesmith.Describe.Finish
import Codesmith.Proofs.Describe.Lasting
import Codesmith.Proofs.Gen.Typed

/-!
# Descriptions lead to typed charts

Whatever a description asks of its generator, the operations are pointed and no exit leads to the entry.
So the generator describes a typed chart until something fails or the function is finished.

`Keeps` says what an edit does to a sketch of which this holds. Edits that need and promise nothing else
are `Tame`; tame edits are found by instance search along the way they are put together.
-/

set_option synthInstance.maxSize 256

namespace Codesmith.Describe

open Gen (Operation)

variable {α β : Type}
variable {s s' : Sketch} {p p' : Prop} {q : α → Prop} {r : β → Prop} {x e : Edit α} {f : α → Edit β}
  {a : Attempt α} {op : Operation} {b : BlockId}

/-! ## Sketches -/

/-- None of the blocks where a loop goes on is the entry. -/
structure Loop.Inner (l : Loop) : Prop where
  next : l.next ≠ 0
  exit : l.exit ≠ 0
  head : l.head ≠ 0

namespace Sketch

variable {s s' : Sketch}

/-- No code can come of the sketch anymore. -/
def Lost (s : Sketch) : Prop :=
  s.finished = true ∨ s.gen.Broken

/-- The generator describes a typed chart, and no loop leads to the entry. -/
structure Sane (s : Sketch) : Prop where
  gen : ∃ c, s.gen.Describes s.sig c
  loops : ∀ l ∈ s.loops, l.Inner

theorem Same.lost (h : s.Same s') (hs : s.Lost) : s'.Lost := by
  rw [Lost, h.gen, h.finished]
  exact hs

theorem Same.sane (h : s.Same s') (hs : s.Sane) : s'.Sane := by
  constructor
  · rw [h.gen, h.sig]
    exact hs.gen
  · rw [h.loops]
    exact hs.loops

end Sketch

/-! ## Edits -/

/-- What an edit makes of a sane sketch is sane again or lost, and what is lost or rejected stays so. -/
structure KeepsAt (s : Sketch) (p : Prop) (s' : Sketch) (q : Prop) : Prop where
  sig : s'.sig = s.sig
  error : s.error.isSome = true → s'.error.isSome = true
  lost : s.Lost → s'.Lost
  sane : s.Sane → p → s'.Lost ∨ s'.Sane ∧ q

/-- What an edit makes of a sane sketch is sane again or lost, and what is lost stays so. If the first
condition holds of a sane sketch, so does the second. -/
def Keeps (e : Edit α) (p : Prop) (q : α → Prop) : Prop :=
  ∀ s a s', e s = .ok (a, s') → KeepsAt s p s' (q a)

def Sketch.StaysSane (s s' : Sketch) : Prop :=
  KeepsAt s True s' True

/-- An edit that keeps sketches sane. -/
abbrev Tame (e : Edit α) : Prop :=
  Leads Sketch.StaysSane e

/-- An attempt that keeps sketches sane. -/
abbrev TameAttempt (a : Attempt α) : Prop :=
  LeadsAttempt Sketch.StaysSane a

theorem KeepsAt.trans {t u : Sketch} {q r : Prop} (h : KeepsAt s p t q) (h' : KeepsAt t q u r) :
    KeepsAt s p u r where
  sig := h'.sig.trans h.sig
  error he := h'.error (h.error he)
  lost hs := h'.lost (h.lost hs)
  sane hs hp := (h.sane hs hp).elim (fun ht => .inl (h'.lost ht)) fun ⟨ht, hq⟩ => h'.sane ht hq

theorem KeepsAt.mono {q q' : Prop} (h : KeepsAt s p s' q) (hp : p' → p) (hq : p' → q → q') :
    KeepsAt s p' s' q' where
  sig := h.sig
  error := h.error
  lost := h.lost
  sane hs hp' := (h.sane hs (hp hp')).imp_right fun ⟨hs', h'⟩ => ⟨hs', hq hp' h'⟩

theorem Sketch.Same.keeps (h : s.Same s') {q : Prop} (hpq : p → q) : KeepsAt s p s' q :=
  ⟨h.sig, h.error, h.lost, fun hs hp => .inr ⟨h.sane hs, hpq hp⟩⟩

theorem Keeps.bind (hx : Keeps x p q) (hf : ∀ a, Keeps (f a) (q a) r) : Keeps (x >>= f) p r := by
  intro s b s' h
  obtain ⟨a, t, ha, hb⟩ := bind_ok h
  exact (hx s a t ha).trans (hf a t b s' hb)

theorem Keeps.mono {q' : α → Prop} (h : Keeps e p q) (hp : p' → p) (hq : ∀ a, p' → q a → q' a) :
    Keeps e p' q' :=
  fun s a s' he => (h s a s' he).mono hp (hq a)

theorem Keeps.and (h : Keeps e p q) (r : Prop) : Keeps e (p ∧ r) fun a => q a ∧ r :=
  h.mono And.left fun _ hp hq => ⟨hq, hp.2⟩

theorem keeps_pure {a : α} (h : p → q a) : Keeps (pure a) p q := by
  intro s b s' he
  cases he
  exact (Sketch.Same.refl s).keeps h

theorem keeps_of_same (h : ∀ s a s', e s = .ok (a, s') → s.Same s' ∧ (p → q a)) : Keeps e p q :=
  fun s a s' he => (h s a s' he).1.keeps (h s a s' he).2

theorem Leads.keeps (h : Tame e) : Keeps e True fun _ => True :=
  h.holds

theorem Keeps.tame (h : Keeps e True q) : Tame e :=
  ⟨h.mono id fun _ _ _ => trivial⟩

/-- What is known before a tame edit is known after it. -/
theorem Leads.frame (h : Tame e) (p : Prop) : Keeps e p fun _ => p :=
  h.keeps.mono (fun _ => trivial) fun _ hp _ => hp

theorem Leads.bind (hx : Tame x) {q : β → Prop} (hf : ∀ a, Keeps (f a) p q) : Keeps (x >>= f) p q :=
  (hx.frame p).bind hf

instance : Lasting Sketch.StaysSane where
  beside h := h.toSame.keeps id
  trans := KeepsAt.trans

/-- What an attempt that is not rejected promises. -/
def Grants (a : Attempt α) (p : Prop) (q : α → Prop) : Prop :=
  Keeps a.run p fun r => ∀ x, r = .ok x → q x

theorem LeadsAttempt.grants (h : TameAttempt a) (p : Prop) : Grants a p fun _ => p :=
  (h.run.frame p).mono id fun _ hp _ _ _ => hp

theorem Grants.tame (h : Grants a True q) : TameAttempt a :=
  ⟨Keeps.tame h⟩

theorem grants_pure {a : α} (h : p → q a) : Grants (pure a) p q :=
  keeps_pure fun hp _ he => Except.ok.inj he ▸ h hp

theorem grants_throw (e : Rejection) (p : Prop) (q : α → Prop) : Grants (throw e : Attempt α) p q :=
  keeps_pure fun _ _ => nofun

theorem Keeps.grants (h : Keeps e p q) : Grants (liftM e : Attempt α) p q :=
  Keeps.bind h fun _ => keeps_pure fun hq _ he => Except.ok.inj he ▸ hq

theorem Grants.bind {x : Attempt α} {f : α → Attempt β} (hx : Grants x p q) (hf : ∀ a, Grants (f a) (q a) r) :
    Grants (x >>= f) p r := by
  refine Keeps.bind hx fun y => ?_
  cases y with
  | ok a => exact (hf a).mono (fun h => h a rfl) fun _ _ => id
  | error e => exact keeps_pure fun _ _ => nofun

theorem keeps_attempt {otherwise : α} (ha : Grants a p q) (hq : p → q otherwise) :
    Keeps (attempt otherwise a) p q := by
  refine Keeps.bind (ha.mono id fun r hp h => And.intro h hp) fun r => ?_
  cases r with
  | ok x => exact keeps_pure fun h => h.1 x rfl
  | error e =>
    refine Leads.bind (leads_reject e) fun _ => ?_
    exact keeps_pure fun h => hq h.2

/-! ### The generator -/

/-- A call that keeps generators typed. -/
structure Proper (f : Gen.Generator → Gen.Generator) : Prop where
  broken : ∀ g, g.Broken → (f g).Broken
  typed : ∀ g sig c, g.Describes sig c → (f g).Typed sig

theorem Sketch.Sane.gen_typed (hs : s.Sane) {g : Gen.Generator} (hg : g.Typed s.sig) {q : Prop} (hq : q) :
    { s with gen := g }.Lost ∨ { s with gen := g }.Sane ∧ q :=
  hg.imp .inr fun hc => ⟨⟨hc, hs.loops⟩, hq⟩

theorem Proper.keepsAt {f : Gen.Generator → Gen.Generator} (hf : Proper f) (s : Sketch) :
    KeepsAt s p { s with gen := f s.gen } p where
  sig := rfl
  error := id
  lost hs := hs.imp_right (hf.broken s.gen)
  sane hs hp := by
    obtain ⟨c, hc⟩ := hs.gen
    exact hs.gen_typed (hf.typed _ _ c hc) hp

theorem tame_instruct {f : Gen.Generator → Gen.Generator} (hf : Proper f) : Tame (instruct f) :=
  ⟨fun s a s' he => by cases he; exact hf.keepsAt s⟩

theorem tame_generate {f : Gen.Generator → α × Gen.Generator} (hf : Proper fun g => (f g).2) :
    Tame (generate f) :=
  ⟨fun s a s' he => by cases he; exact hf.keepsAt s⟩

theorem tame_setPosition (p : Position) : Tame (setPosition p) :=
  tame_instruct ⟨fun g h => h.notes fun _ _ _ _ => g.notes_setPosition _, fun _ _ _ h => .inr ⟨_, h.setPosition _⟩⟩

instance (t : Ty) (p x : Ref) : Tame (instruct (Gen.Generator.store t p x)) :=
  tame_instruct ⟨fun _ h => h.notes fun _ _ _ h => h.store t p x, fun _ _ _ h => h.store t p x⟩

theorem keeps_operation (hop : p → op.Pointed) (position : Position) :
    Keeps (operation op position) p fun _ => p := by
  refine (tame_setPosition position).bind fun _ s a s' h => ?_
  cases h
  refine ⟨rfl, id, fun hs => hs.imp_right (·.notes fun _ _ _ h => h.value op), fun hs hp => ?_⟩
  obtain ⟨c, hc⟩ := hs.gen
  exact hs.gen_typed (hc.value (hop hp)) hp

theorem tame_operation (hop : op.Pointed) (p : Position) : Tame (operation op p) :=
  ⟨keeps_operation (fun _ => hop) p⟩

theorem keeps_terminate {e : Gen.Exit} (he : p → (Graph.entry : Int) ∉ e.targets) (position : Position) :
    Keeps (terminate e position) p fun _ => p := by
  refine (tame_setPosition position).bind fun _ s a s' h => ?_
  cases h
  refine ⟨rfl, id, fun hs => hs.imp_right (·.notes fun _ _ _ h => h.terminate e), fun hs hp => ?_⟩
  obtain ⟨c, hc⟩ := hs.gen
  exact hs.gen_typed (hc.terminate (he hp)) hp

theorem keeps_newBlock (name : String) (p : Prop) : Keeps (newBlock name) p fun b => b ≠ 0 ∧ p := by
  intro s b s' h
  obtain ⟨s1, t, hget, h⟩ := bind_ok h
  cases hget
  obtain ⟨⟨b1, g⟩, t', hg, h⟩ := bind_ok h
  obtain ⟨hg, rfl⟩ := lift_ok hg
  cases h
  refine ⟨rfl, id, fun hs => hs.imp_right fun hb => ?_, fun hs hp => ?_⟩
  · refine hb.notes (r := none) fun _ _ _ huse => ?_
    obtain ⟨b', g', hg', hn⟩ := huse.newBlock name
    obtain ⟨-, rfl⟩ : b = b' ∧ g = g' := by simpa [hg] using hg'
    exact hn
  · obtain ⟨c, hc⟩ := hs.gen
    obtain ⟨b', g', hg', hne, hc'⟩ := hc.newBlock name
    obtain ⟨rfl, rfl⟩ : b = b' ∧ g = g' := by simpa [hg] using hg'
    exact hs.gen_typed (.inr ⟨_, hc'⟩) ⟨hne, hp⟩

theorem tame_setBlock (b : BlockId) : Tame (setBlock b) := by
  constructor
  intro s a s' h
  obtain ⟨s1, t, hget, h⟩ := bind_ok h
  cases hget
  obtain ⟨g, t', hg, h⟩ := bind_ok h
  obtain ⟨hg, rfl⟩ := lift_ok hg
  cases h
  refine ⟨rfl, id, fun hs => hs.imp_right fun hb => ?_, fun hs _ => ?_⟩
  · obtain ⟨_, _, _, huse, he⟩ := hb
    obtain ⟨g', hg', hn⟩ := huse.setBlock b
    obtain rfl : g = g' := by simpa [hg] using hg'
    exact huse.broken hn (.inr he)
  · obtain ⟨c, hc⟩ := hs.gen
    obtain ⟨g', hg', ht⟩ := hc.setBlock b
    obtain rfl : g = g' := by simpa [hg] using hg'
    exact hs.gen_typed ht trivial

instance : LastingJoin Sketch.StaysSane where
  setPosition := tame_setPosition
  addIncoming id source x :=
    tame_instruct ⟨fun _ h => h.notes fun _ _ _ h => h.addIncoming id source x, fun _ _ _ h => h.addIncoming id source x⟩
  phi join t := tame_generate ⟨fun _ h => h.notes fun _ _ _ h => h.phi join t, fun _ _ _ h => h.phi join t⟩
  newBlock name := (keeps_newBlock name True).tame
  setBlock := tame_setBlock

/-! ### Variables -/

theorem keeps_newVar (t : Ty) (ref : Ref) (position : Position) (p : Prop) :
    Keeps (newVar t ref position) p fun v => v.ty = t ∧ p :=
  keeps_of_same fun s a s' h => by cases h; exact ⟨⟨rfl, rfl, rfl, rfl, id⟩, fun hp => ⟨rfl, hp⟩⟩

instance tame_newVar (t : Ty) (ref : Ref) (p : Position) : Tame (newVar t ref p) :=
  (keeps_newVar t ref p True).tame

instance tame_invalid (t : Ty) : Tame (invalid t) := by
  unfold invalid
  infer_instance

instance (t : Ty) (bits : UInt64) (p : Position) : Tame (operation (.const t bits) p) :=
  tame_operation (by trivial) p

instance (op : String) (t : Ty) (x : Operand) (p : Position) :
    TameAttempt (operand op t x p) := by
  unfold operand
  split
  · infer_instance
  · split <;> infer_instance

instance (op : String) (t : Ty) (x : Operand) (p : Position) :
    TameAttempt (operandOf op t x p) := by
  unfold operandOf
  infer_instance

instance (op : String) (t : Ty) (x : Operand) (p : Position) :
    TameAttempt (constant op t x p) := by
  unfold constant
  dsimp only
  split <;> infer_instance

/-! ### Operations on values -/

instance (n : Int) (p : Position) : Tame (arg n p) := by
  unfold arg
  refine Leads.andThen inferInstance fun s => ?_
  dsimp only
  split
  · infer_instance
  · split <;> infer_instance

instance (p : Position) : Tame (args p) := by
  unfold args
  infer_instance

instance (t : Ty) (x : Operand) (p : Position) : Tame (const t x p) := by
  unfold const
  infer_instance

instance (x : Option Value) (p : Position) : Tame (var x p) := by
  unfold var
  infer_instance

instance (v : Value) (p : Position) : Tame (copy v p) := by
  unfold copy
  infer_instance

instance tame_assign (v : Value) (x : Operand) (p : Position) : Tame (assign v x p) := by
  have hset : ∀ ref : Ref, TameAttempt (do
      let s ← get
      let id := v.var.getD 0
      let frames := match s.frames with
        | [] => []
        | f :: fs => f.add id :: fs
      set { s.setRef id ref with frames } : Attempt Unit) := fun ref =>
    ⟨⟨keeps_of_same fun s a s' h => by cases h; exact ⟨⟨rfl, rfl, rfl, rfl, id⟩, id⟩⟩⟩
  unfold assign
  infer_instance

instance (op : Op) (v : Value) (x : Operand) (p : Position) : Tame (arith op v x p) := by
  have hop : ∀ l r, Tame (operation (.binary op v.ty l r) p) := fun l r => tame_operation (by trivial) p
  unfold arith
  infer_instance

instance (op : Op) (v : Value) (p : Position) : Tame (unary op v p) := by
  have hop : ∀ x, Tame (operation (.unary op v.ty x) p) := fun x => tame_operation (by trivial) p
  unfold unary
  infer_instance

instance (c : Cond) (v : Value) (x : Operand) (p : Position) : Tame (compare c v x p) := by
  have hop : ∀ l r, Tame (operation (.compare c v.ty l r) p) := fun l r => tame_operation (by trivial) p
  unfold compare
  infer_instance

instance (v : Value) (t : Ty) (p : Position) : Tame (convert v t p) := by
  have hop : ∀ x, Tame (operation (.convert t v.ty x) p) := fun x => tame_operation (by trivial) p
  unfold convert
  infer_instance

/-! ### Pointers -/

theorem grants_pointee (op : String) (v : Value) (p : Position) :
    Grants (pointee op v p) True fun _ => v.ty.kind = .ptr := by
  unfold pointee
  refine ((leads_ready op p).grants True).bind fun _ => ((leads_use op v p).grants True).bind fun q => ?_
  split
  · exact grants_throw _ _ _
  · rename_i heq
    exact grants_pure fun _ => by rw [heq]; rfl
  · exact grants_throw _ _ _

instance (op : String) (v : Value) (p : Position) : TameAttempt (pointee op v p) :=
  (grants_pointee op v p).tame

instance tame_indexOf (op : String) (v : Value) (i : Operand) (p : Position) :
    TameAttempt (indexOf op v i p) := by
  unfold indexOf
  split <;> infer_instance

theorem grants_ptrAdd {t : Ty} (ht : p → t.kind = .ptr) (op : String) (v : Value) (q : Ref) (i : Operand)
    (scale : Int) (position : Position) : Grants (ptrAdd op v q t i scale position) p fun _ => p :=
  ((tame_indexOf op v i position).grants p).bind fun _ =>
    (keeps_operation ht position).grants.bind fun x => ((tame_newVar t x position).frame p).grants

instance (op : String) (v : Value) (q : Ref) (t : Ty) (i : Operand) (scale : Int)
    (position : Position) : TameAttempt (ptrAdd op v q (.ptr t) i scale position) :=
  (grants_ptrAdd (fun _ => rfl) op v q i scale position).tame

instance (v : Value) (i : Operand) (p : Position) : Tame (index v i p) := by
  have hrest : TameAttempt (do
      let (elem, q) ← pointee "index" v p
      ptrAdd "index" v q v.ty i (← elem.size) p : Attempt Value) :=
    Grants.tame ((grants_pointee "index" v p).bind fun r =>
      ((leadsAttempt_liftExcept r.1.size).grants _).bind fun size => grants_ptrAdd id _ _ _ _ _ _)
  unfold index
  infer_instance

instance (v : Value) (i : Operand) (p : Position) : Tame (offset v i p) := by
  have hrest : TameAttempt (do
      let (_, q) ← pointee "offset" v p
      ptrAdd "offset" v q v.ty i 1 p : Attempt Value) :=
    Grants.tame ((grants_pointee "offset" v p).bind fun r => grants_ptrAdd id _ _ _ _ _ _)
  unfold offset
  infer_instance

instance (v : Value) (name : String) (p : Position) : Tame (field v name p) := by
  have hfind : ∀ (elem : Ty) (q : Ref), TameAttempt (match (fieldsOf elem).find? fun f => f.name == name with
      | none => throw (.unsupported ("field " ++ name) v.ty p)
      | some f => pure (some f, q) : Attempt (Option (Field Ty) × Ref)) := fun elem q => by
    split <;> infer_instance
  have hrest : ∀ (f : Option (Field Ty)) (q : Ref), Tame (match f with
      | none => invalid .void
      | some f => do
        attempt (← invalid (.ptr f.ty)) (ptrAdd ("field " ++ name) v q (.ptr f.ty)
          (.const (.int (.int (some .w64) true) f.offset)) 1 p) : Edit Value) := fun f q => by
    split <;> infer_instance
  unfold field
  exact Leads.andThen inferInstance fun r => hrest r.1 r.2

instance (v : Value) (i : Operand) (p : Position) : Tame (element v i p) := by
  have hfind : ∀ (elem : Ty) (q : Ref), TameAttempt (match elem with
      | .array _ _ => pure (elem, q)
      | _ => throw (.unsupported "at" v.ty p) : Attempt (Ty × Ref)) := fun elem q => by
    split <;> infer_instance
  unfold element
  refine Leads.andThen inferInstance fun r => ?_
  obtain ⟨t, q⟩ := r
  dsimp only
  split <;> infer_instance

instance tame_loadAs (op : String) (v : Value) (p : Position) : Tame (loadAs op v p) := by
  have hop : ∀ t q, Tame (operation (.load t q) p) := fun t q => tame_operation (by trivial) p
  unfold loadAs
  infer_instance

instance (v : Value) (p : Position) : Tame (load v p) :=
  tame_loadAs "load" v p

instance (v : Value) (i : Operand) (p : Position) : Tame (elem v i p) := by
  have hpointee : Keeps (attempt (Ty.void, noRef) (pointee "elem" v p)) True fun r =>
      r.1.isVoid = true ∨ v.ty.kind = .ptr :=
    keeps_attempt (Keeps.mono (grants_pointee "elem" v p) id fun _ _ h x hx => .inr (h x hx))
      fun _ => .inl rfl
  refine ⟨hpointee.bind fun r => ?_⟩
  obtain ⟨t, q⟩ := r
  dsimp only
  split
  · exact (tame_invalid .void).keeps.mono (fun _ => trivial) fun _ _ => id
  rename_i hvoid
  refine (leads_lift t.size).bind fun size => (tame_invalid v.ty).bind fun x => ?_
  refine Keeps.bind (keeps_attempt (q := fun _ => True) ?_ fun _ => trivial) fun y =>
    (tame_loadAs "elem" y p).keeps
  exact Keeps.mono (grants_ptrAdd (fun h => h.resolve_left hvoid) "elem" v q i size p) id
    fun _ _ _ _ _ => trivial

instance (v : Value) (x : Operand) (p : Position) : Tame (store v x p) := by
  unfold store
  infer_instance

instance (v : Value) (q : Option Value) (p : Position) : Tame (diff v q p) := by
  have hop : ∀ l r scale, Tame (operation (.ptrDiff l r scale) p) := fun _ _ _ =>
    tame_operation (by trivial) p
  unfold diff
  infer_instance

/-- A loop that is entered goes on where it did before. -/
theorem keeps_enterLoop (l : Loop) (position : Position) :
    Keeps (enterLoop l position) l.Inner fun l' => l'.Inner := by
  unfold enterLoop
  refine (leads_get).bind fun s => ?_
  refine (keeps_terminate (fun h => ?_) position).bind fun _ => (tame_setBlock l.head).bind fun _ => ?_
  · simpa [Gen.Exit.targets, Graph.entry] using h.head.symm
  · split
    · exact keeps_pure id
    · refine Leads.bind inferInstance fun phis => keeps_pure fun h => ⟨h.next, h.exit, h.head⟩

/-! ### Conditionals -/

/-- None of the blocks of a conditional is the entry. -/
structure Conditional.Inner (k : Conditional) : Prop where
  yes : k.yes ≠ 0
  no : k.no ≠ 0
  join : k.join ≠ 0

theorem entry_not_mem_jump (hb : b ≠ 0) : (Graph.entry : Int) ∉ (Gen.Exit.jump b).targets := by
  simpa [Gen.Exit.targets, Graph.entry] using hb.symm

theorem entry_not_mem_branch {b' : BlockId} (hb : b ≠ 0) (hb' : b' ≠ 0) (c : Ref) :
    (Graph.entry : Int) ∉ (Gen.Exit.branch c b b').targets := by
  simp only [Gen.Exit.targets]
  split <;> simp [Graph.entry, hb.symm, hb'.symm]

theorem keeps_startIf (c : Option Value) (hasElse : Bool) (p : Position) :
    Keeps (startIf c hasElse p) True fun r => ∀ k, r = some k → k.Inner := by
  refine keeps_attempt ?_ fun _ => nofun
  refine ((leads_ready "if" p).grants _).bind fun _ => ((leads_condition "if" c p).grants _).bind fun ref =>
    (leadsAttempt_get.grants _).bind fun s => ?_
  refine (keeps_newBlock "if.then" True).grants.bind fun yes =>
    (keeps_newBlock "if.end" _).grants.bind fun join => ?_
  have hrest : ∀ no, Grants (do
      terminate (.branch ref yes no) p
      pushFrame
      return some ⟨s.vars.size, s.dead, s.snapshot s.vars.size, yes, no, join,
        if hasElse || s.dead then [] else [⟨s.gen.current, s.snapshot s.vars.size⟩]⟩ : Attempt (Option Conditional))
      (no ≠ 0 ∧ join ≠ 0 ∧ yes ≠ 0 ∧ True) fun r => ∀ k, r = some k → k.Inner := by
    intro no
    refine (keeps_terminate (fun h => ?_) p).grants.bind fun _ =>
      ((leads_pushFrame).frame _).grants.bind fun _ => grants_pure ?_
    · exact entry_not_mem_branch h.2.2.1 h.1 ref
    · rintro h k hk
      cases hk
      exact ⟨h.2.2.1, h.1, h.2.1⟩
  dsimp only
  split
  · exact (keeps_newBlock "if.else" _).grants.bind hrest
  · exact Grants.bind (grants_pure fun h => ⟨h.1, h⟩) hrest

theorem keeps_leavePart (k : Conditional) (p : Position) :
    Keeps (leavePart k p) k.Inner fun k' => k'.Inner := by
  unfold leavePart
  refine leads_get.bind fun s => ?_
  split
  · exact keeps_pure id
  · exact (keeps_terminate (fun h => entry_not_mem_jump h.join) p).bind fun _ =>
      keeps_pure fun h => ⟨h.yes, h.no, h.join⟩

/-! ### Loops -/

/-- None of the blocks of a loop is the entry. -/
structure LoopPlan.Inner (p : LoopPlan) : Prop where
  loop : p.loop.Inner
  body : p.body ≠ 0

theorem keeps_pushLoop (l : Loop) : Keeps (pushLoop l) l.Inner fun _ => True := by
  intro s a s' h
  cases h
  refine ⟨rfl, id, id, fun hs hl => .inr ⟨⟨hs.gen, fun l' hl' => ?_⟩, trivial⟩⟩
  rcases List.mem_cons.1 hl' with rfl | hl'
  · exact hl
  · exact hs.loops l' hl'

theorem popLoop_nil (h : s.loops = []) : popLoop l s = .ok (l, s) := by
  obtain ⟨⟩ := s
  cases h
  rfl

theorem popLoop_run {ls : List Loop} (h : s.loops = l' :: ls) :
    popLoop l s = .ok (l', { s with loops := ls }) := by
  obtain ⟨⟩ := s
  cases h
  rfl

theorem keeps_popLoop (l : Loop) : Keeps (popLoop l) l.Inner fun l' => l'.Inner := by
  intro s a s' h
  cases hs : s.loops with
  | nil =>
    rw [popLoop_nil hs] at h
    cases h
    exact (Sketch.Same.refl s).keeps id
  | cons l' ls =>
    rw [popLoop_run hs] at h
    cases h
    refine ⟨rfl, id, id, fun hsane _ => .inr ⟨⟨hsane.gen, fun k hk => ?_⟩, ?_⟩⟩
    · exact hsane.loops k (hs ▸ List.mem_cons_of_mem _ hk)
    · exact hsane.loops a (hs ▸ List.mem_cons_self)

theorem keeps_startLoop (name : String) (hasStep : Bool) (p : Position) :
    Keeps (startLoop name hasStep p) True fun plan => plan.Inner := by
  unfold startLoop
  refine leads_get.bind fun s => ?_
  refine (keeps_newBlock _ True).bind fun head => (keeps_newBlock _ _).bind fun body =>
    (keeps_newBlock _ _).bind fun exit => ?_
  have hrest : ∀ step : Option BlockId, Keeps (do
      let loop ← enterLoop { size := s.vars.size, next := step.getD head, exit, head } p
      pushFrame
      return { loop, before := s.snapshot s.vars.size, body, step } : Edit LoopPlan)
      (step.getD head ≠ 0 ∧ exit ≠ 0 ∧ body ≠ 0 ∧ head ≠ 0 ∧ True) fun plan => plan.Inner := by
    intro step
    refine Keeps.bind (q := fun l => l.Inner ∧ body ≠ 0) ((keeps_enterLoop _ p).mono ?_ ?_) fun l =>
      leads_pushFrame.bind fun _ => keeps_pure fun h => ⟨h.1, h.2⟩
    · exact fun h => ⟨h.1, h.2.1, h.2.2.2.1⟩
    · exact fun l h hl => ⟨hl, h.2.2.1⟩
  dsimp only
  split
  · exact Keeps.bind (Keeps.bind (keeps_newBlock _ _) fun b => keeps_pure id) hrest
  · exact Keeps.bind (keeps_pure fun h => ⟨h.2.2.1, h⟩) hrest

theorem keeps_leaveHead (plan : LoopPlan) (c : Option Ref) (p : Position) :
    Keeps (leaveHead plan c p) plan.Inner fun _ => True := by
  unfold leaveHead
  refine leads_get.bind fun s => ?_
  refine (keeps_terminate (fun h => ?_) p).bind fun _ => (tame_setBlock plan.body).bind fun _ =>
    ((keeps_pushLoop plan.loop).mono LoopPlan.Inner.loop fun _ _ => id).bind fun _ => keeps_pure id
  cases c with
  | none => exact entry_not_mem_jump h.body
  | some ref => exact entry_not_mem_branch h.body h.loop.exit ref

theorem keeps_leaveBody (plan : LoopPlan) (l : Loop) (p : Position) :
    Keeps (leaveBody plan l p) l.Inner fun l' => l'.Inner := by
  unfold leaveBody
  refine leads_get.bind fun s => ?_
  split
  · exact keeps_pure id
  · refine (keeps_terminate (fun h => entry_not_mem_jump h.next) p).bind fun _ => ?_
    split
    · exact keeps_pure fun h => ⟨h.next, h.exit, h.head⟩
    · exact (leads_backEdge l _).bind fun _ => keeps_pure id

theorem keeps_leaveStep (l : Loop) (p : Position) : Keeps (leaveStep l p) l.Inner fun _ => True := by
  unfold leaveStep
  refine leads_get.bind fun s => ?_
  split
  · exact keeps_pure fun _ => trivial
  · exact (keeps_terminate (fun h => entry_not_mem_jump h.head) p).bind fun _ =>
      ((leads_backEdge l _).frame _).mono id fun _ _ _ => trivial

theorem keeps_startDo (p : Position) : Keeps (startDo p) True fun plan => plan.Inner := by
  unfold startDo
  refine leads_get.bind fun s => ?_
  refine (keeps_newBlock _ True).bind fun head => (keeps_newBlock _ _).bind fun test =>
    (keeps_newBlock _ _).bind fun exit => ?_
  have henter : Keeps (enterLoop { size := s.vars.size, next := test, exit, head } p)
      (exit ≠ 0 ∧ test ≠ 0 ∧ head ≠ 0 ∧ True) fun l => l.Inner ∧ head ≠ 0 :=
    (keeps_enterLoop _ p).mono (fun h => ⟨h.2.1, h.1, h.2.2.1⟩) fun l h hl => ⟨hl, h.2.2.1⟩
  refine Keeps.bind henter fun l => leads_pushFrame.bind fun _ => ?_
  have hpush : Keeps (pushLoop l) (l.Inner ∧ head ≠ 0) fun _ => l.Inner ∧ head ≠ 0 :=
    (keeps_pushLoop l).mono And.left fun _ h _ => h
  exact hpush.bind fun _ => keeps_pure fun h => ⟨h.1, h.2⟩

theorem keeps_leaveDoBody (l : Loop) (p : Position) : Keeps (leaveDoBody l p) l.Inner fun l' => l'.Inner := by
  unfold leaveDoBody
  refine leads_get.bind fun s => ?_
  have hrest : ∀ l : Loop, Keeps (do merge l.next l.continues l.size none; return l) l.Inner
      fun l' => l'.Inner := fun l => (leads_merge _ _ _ _).bind fun _ => keeps_pure id
  dsimp only
  split
  · exact Keeps.bind (keeps_pure id) hrest
  · exact (keeps_terminate (fun h => entry_not_mem_jump h.next) p).bind fun _ =>
      Keeps.bind (keeps_pure fun h => ⟨h.next, h.exit, h.head⟩) hrest

theorem keeps_endDo (plan : LoopPlan) (l : Loop) (c : Option Ref) (p : Position) :
    Keeps (endDo plan l c p) l.Inner fun _ => True := by
  unfold endDo
  refine leads_get.bind fun s => ?_
  dsimp only
  split
  · refine (keeps_terminate (fun h => ?_) p).bind fun _ => ?_
    · cases c with
      | none => exact entry_not_mem_jump h.head
      | some ref => exact entry_not_mem_branch h.head h.exit ref
    · exact (Leads.frame inferInstance _).mono id fun _ _ _ => trivial
  · exact (Leads.frame inferInstance _).mono id fun _ _ _ => trivial

/-! ### Loops over numbers and elements -/

instance (n : Operand) (p : Position) : Tame (countOf n p) := by
  unfold countOf
  have hrest : ∀ v : Option Value, TameAttempt (do let _ ← use "for-n" v p; return v) := fun v =>
    inferInstance
  have hcount : TameAttempt (do
      let v ← match n with
        | .value v => pure v
        | .const _ => some <$> constant "for-n" .i64 n p
      let _ ← use "for-n" v p
      return v : Attempt (Option Value)) := by
    cases n with
    | value v => exact leadsAttempt_bind (pure v) _
    | const x =>
      have : TameAttempt (some <$> constant "for-n" .i64 (.const x) p : Attempt (Option Value)) :=
        leadsAttempt_bind (constant "for-n" .i64 (.const x) p) fun v => pure (some v)
      exact leadsAttempt_bind _ _
  infer_instance

instance (v : Value) (next : Edit Value) [Tame next] (p : Position) :
    Tame (advance v next p) := by
  unfold advance
  infer_instance

/-- The elements between two pointers have a pointer each. -/
theorem keeps_rangeOf (first last : Option Value) (p : Position) :
    Keeps (rangeOf first last p) True fun r => ∀ x, r = some x → x.1.ty.kind = .ptr := by
  refine keeps_attempt ?_ fun _ => nofun
  refine ((leads_ready _ p).grants _).bind fun _ => ((leads_use _ first p).grants _).bind fun _ =>
    ((leads_use _ last p).grants _).bind fun _ => ?_
  split
  · rename_i first last
    refine ((leads_same _ _ _ p).grants _).bind fun _ => (grants_pointee _ first p).bind fun r =>
      grants_pure fun h x hx => ?_
    cases hx
    exact h
  · exact grants_pure fun _ => nofun

/-! ### Leaving -/

instance (x : Operand) (p : Position) : TameAttempt (resultOf x p) := by
  unfold resultOf
  infer_instance

instance (x : Operand) (p : Position) : Tame (ret x p) := by
  have hret : ∀ ref, Tame (terminate (.ret ref) p) := fun ref =>
    ⟨keeps_terminate (fun _ => List.not_mem_nil) p⟩
  unfold ret
  infer_instance

theorem keepsAt_loops {ls : List Loop} (hs : s.loops = ls) : KeepsAt s True s (∀ l ∈ ls, l.Inner) :=
  ⟨rfl, id, id, fun hsane _ => .inr ⟨hsane, hs ▸ hsane.loops⟩⟩

/-- The innermost loop may be changed as long as it goes on where it did before. -/
theorem keepsAt_setLoops (s : Sketch) {l k : Loop} (hk : l.Inner → k.Inner) (ls : List Loop) :
    KeepsAt s (∀ l' ∈ l :: ls, l'.Inner) { s with loops := k :: ls } (∀ l' ∈ l :: ls, l'.Inner) where
  sig := rfl
  error := id
  lost := id
  sane hs h := .inr ⟨⟨hs.gen, List.forall_mem_cons.2
    ⟨hk (h l List.mem_cons_self), fun l' hl' => h l' (List.mem_cons_of_mem _ hl')⟩⟩, h⟩

theorem tameAttempt_of_get {f : Sketch → Attempt β}
    (h : ∀ s r s', (f s).run s = .ok (r, s') → KeepsAt s True s' True) : TameAttempt (get >>= f) :=
  ⟨⟨fun s r s' he => h s r s' he⟩⟩

theorem grants_leave (hb : p → b ≠ 0) (name : String) (position : Position) :
    Grants (do terminate (.jump b) position; deadBlock name : Attempt Unit) p fun _ => True :=
  (keeps_terminate (fun h => entry_not_mem_jump (hb h)) position).grants.bind fun _ =>
    Keeps.grants (((leads_deadBlock name).frame p).mono id fun _ _ _ => trivial)

instance (p : Position) : Tame (leaveLoop p) := by
  have hrest : TameAttempt (do
      let s ← get
      match s.loops with
      | [] => throw (.breakOutside p)
      | l :: ls =>
        if !s.dead then
          set { s with loops := { l with breaks := l.breaks ++ [s.flow l.size] } :: ls }
          terminate (.jump l.exit) p
        deadBlock "break" : Attempt Unit) := by
    refine tameAttempt_of_get fun s r s' h => ?_
    cases hs : s.loops with
    | nil =>
      rw [hs] at h
      exact (leadsAttempt_throw _).run.keeps s r s' h
    | cons l ls =>
      rw [hs] at h
      dsimp only at h
      split at h
      · have hset := keepsAt_setLoops s (k := { l with breaks := l.breaks ++ [s.flow l.size] })
          (fun h : l.Inner => ⟨h.next, h.exit, h.head⟩) ls
        refine (keepsAt_loops hs).trans (hset.trans ?_)
        exact (grants_leave (fun h => (h l List.mem_cons_self).exit) "break" p _ r s' h).mono id
          fun _ _ => trivial
      · exact (leadsAttempt_lift (deadBlock "break")).run.keeps s r s' h
  unfold leaveLoop
  infer_instance

instance (p : Position) : Tame (nextRound p) := by
  have hrest : TameAttempt (do
      let s ← get
      match s.loops with
      | [] => throw (.continueOutside p)
      | l :: ls =>
        if !s.dead then
          let f := s.flow l.size
          terminate (.jump l.next) p
          if l.next = l.head then backEdge l f
          else modify fun s => { s with loops := { l with continues := l.continues ++ [f] } :: ls }
        deadBlock "continue" : Attempt Unit) := by
    refine tameAttempt_of_get fun s r s' h => ?_
    cases hs : s.loops with
    | nil =>
      rw [hs] at h
      exact (leadsAttempt_throw _).run.keeps s r s' h
    | cons l ls =>
      rw [hs] at h
      dsimp only at h
      split at h
      · refine (keepsAt_loops hs).trans ?_
        refine KeepsAt.mono (q := ∀ x, r = .ok x → True) ?_ id fun _ _ => trivial
        refine Grants.bind (q := fun _ => ∀ k ∈ l :: ls, k.Inner) (Keeps.grants (keeps_terminate
          (fun h => entry_not_mem_jump (h l List.mem_cons_self).next) p)) (fun _ => ?_) s r s' h
        have hdead : ∀ _ : PUnit, Grants (liftM (deadBlock "continue") : Attempt Unit)
            (∀ k ∈ l :: ls, k.Inner) fun _ => True := fun _ =>
          Keeps.grants (((leads_deadBlock "continue").frame _).mono id fun _ _ _ => trivial)
        split
        · exact Grants.bind (Keeps.grants ((leads_backEdge l _).frame _)) hdead
        refine Grants.bind (q := fun _ => ∀ k ∈ l :: ls, k.Inner) (fun t x t' ht => ?_) hdead
        cases ht
        have hset := keepsAt_setLoops t (k := { l with continues := l.continues ++ [s.flow l.size] })
          (fun h : l.Inner => ⟨h.next, h.exit, h.head⟩) ls
        refine hset.mono id fun _ h => ?_
        exact fun _ _ => h
      · exact (leadsAttempt_lift (deadBlock "continue")).run.keeps s r s' h
  unfold nextRound
  infer_instance

end Codesmith.Describe
