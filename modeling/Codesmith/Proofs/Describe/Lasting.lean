import Codesmith.Proofs.Describe.Monad

/-!
# What lasts through edits

Much of a sketch stays as it is through an edit, or changes in one way only. A relation between sketches
that lasts from one step of an edit to the next is found of the whole edit by instance search, along the
way it is put together.

What does not concern the generator or the loops is the same for all such relations. The others say for
themselves what the generator does to them.
-/

set_option synthInstance.maxSize 512

namespace Codesmith.Describe

variable {α β : Type}

/-! ## Sketches -/

namespace Sketch

def types (s : Sketch) : List Ty :=
  s.vars.toList.map Var.ty

/-- Two sketches differ at most in what does not concern the generator and the loops. -/
structure Same (s s' : Sketch) : Prop where
  sig : s'.sig = s.sig
  gen : s'.gen = s.gen
  finished : s'.finished = s.finished
  loops : s'.loops = s.loops
  error : s.error.isSome = true → s'.error.isSome = true

/-- Besides, the variables are those that were there, with the types that they had. -/
structure Beside (s s' : Sketch) : Prop extends s.Same s' where
  id : s'.id = s.id
  types : s'.types = s.types

variable {s t u : Sketch}

theorem Same.refl (s : Sketch) : s.Same s :=
  ⟨rfl, rfl, rfl, rfl, fun he => he⟩

theorem Same.trans (h : s.Same t) (h' : t.Same u) : s.Same u :=
  ⟨h'.sig.trans h.sig, h'.gen.trans h.gen, h'.finished.trans h.finished, h'.loops.trans h.loops,
    fun he => h'.error (h.error he)⟩

theorem Beside.refl (s : Sketch) : s.Beside s :=
  ⟨.refl s, rfl, rfl⟩

theorem Beside.trans (h : s.Beside t) (h' : t.Beside u) : s.Beside u :=
  ⟨h.toSame.trans h'.toSame, h'.id.trans h.id, h'.types.trans h.types⟩

theorem beside_reject (s : Sketch) (e : Rejection) : s.Beside (s.reject e) := by
  unfold reject
  split
  · exact ⟨⟨rfl, rfl, rfl, rfl, fun _ => rfl⟩, rfl, rfl⟩
  · split
    · exact ⟨⟨rfl, rfl, rfl, rfl, fun _ => rfl⟩, rfl, rfl⟩
    · exact .refl s

theorem types_setRef (s : Sketch) (id : Nat) (ref : Ref) : (s.setRef id ref).types = s.types := by
  refine List.ext_getElem? fun i => ?_
  simp only [types, setRef, List.getElem?_map, Array.getElem?_toList, Array.getElem?_modify]
  split
  · cases s.vars[i]? <;> rfl
  · rfl

theorem beside_setRef (s : Sketch) (id : Nat) (ref : Ref) : s.Beside (s.setRef id ref) :=
  ⟨⟨rfl, rfl, rfl, rfl, fun he => he⟩, rfl, types_setRef s id ref⟩

theorem beside_restoreFrom (s : Sketch) (i : Nat) (rs : List Ref) : s.Beside (s.restoreFrom i rs) := by
  induction rs generalizing s i with
  | nil => exact .refl s
  | cons r rs ih => exact (beside_setRef s i r).trans (ih _ _)

theorem beside_keepFrom (s : Sketch) (assigned : BitSet.Plain) (i : Nat) (rs : List Ref) :
    s.Beside (s.keepFrom assigned i rs) := by
  induction rs generalizing s i with
  | nil => exact .refl s
  | cons r rs ih =>
    refine .trans ?_ (ih _ (i + 1))
    split
    · exact .refl s
    · exact beside_setRef s i r

end Sketch

/-- A relation that lasts from one step to the next, and through steps that do not concern the generator,
the loops or the types of variables. -/
class Lasting (R : Sketch → Sketch → Prop) : Prop where
  beside : ∀ {s s'}, s.Beside s' → R s s'
  trans : ∀ {s t u}, R s t → R t u → R s u

/-- Each sketch is related to what the edit makes of it. -/
class Leads (R : Sketch → Sketch → Prop) (e : Edit α) : Prop where
  holds : ∀ s a s', e s = .ok (a, s') → R s s'

@[inherit_doc Leads]
class LeadsAttempt (R : Sketch → Sketch → Prop) (a : Attempt α) : Prop where
  run : Leads R a.run

variable {R : Sketch → Sketch → Prop}

theorem Leads.andThen [Lasting R] {x : Edit α} {f : α → Edit β} (hx : Leads R x) (hf : ∀ a, Leads R (f a)) :
    Leads R (x >>= f) := by
  refine ⟨fun s b s' h => ?_⟩
  obtain ⟨a, t, ha, hb⟩ := bind_ok h
  exact Lasting.trans (hx.holds s a t ha) ((hf a).holds t b s' hb)

/-! ### How edits are put together -/

section Steps

variable [Lasting R]

instance leads_pure (a : α) : Leads R (pure a : Edit α) :=
  ⟨fun s _ _ h => by cases h; exact Lasting.beside (.refl s)⟩

instance leads_bind (x : Edit α) (f : α → Edit β) [hx : Leads R x] [hf : ∀ a, Leads R (f a)] :
    Leads R (x >>= f) :=
  hx.andThen hf

instance (c : Prop) [Decidable c] (x y : Edit α) [Leads R x] [Leads R y] :
    Leads R (if c then x else y) := by
  split <;> infer_instance

instance leads_get : Leads R (get : Edit Sketch) :=
  ⟨fun s _ _ h => by cases h; exact Lasting.beside (.refl s)⟩

omit [Lasting R] in
theorem leads_modify {f : Sketch → Sketch} (h : ∀ s : Sketch, R s (f s)) : Leads R (modify f : Edit Unit) :=
  ⟨fun s _ _ he => by cases he; exact h s⟩

omit [Lasting R] in
theorem leads_modifyGet {f : Sketch → α × Sketch} (h : ∀ s : Sketch, R s (f s).2) :
    Leads R (modifyGet f : Edit α) := by
  refine ⟨fun s a s' he => ?_⟩
  have he : f s = (a, s') := Except.ok.inj he
  have hs := h s
  rwa [he] at hs

instance leads_lift (x : Except Fault α) : Leads R (liftM x : Edit α) :=
  ⟨fun s a s' he => by cases x <;> cases he; exact Lasting.beside (.refl s)⟩

instance (f : α → β) (e : Edit α) [Leads R e] : Leads R (f <$> e) := by
  rw [map_eq_pure_bind]
  infer_instance

instance (f : α → Edit Unit) [hf : ∀ a, Leads R (f a)] (xs : List α) : Leads R (xs.forM f) := by
  induction xs with
  | nil => exact leads_pure ()
  | cons x xs ih => exact leads_bind _ _

instance (f : α → Edit β) [hf : ∀ a, Leads R (f a)] (xs : List α) : Leads R (xs.mapM f) := by
  induction xs with
  | nil => exact leads_pure []
  | cons x xs ih =>
    rw [List.mapM_cons]
    infer_instance

instance (a : α) : LeadsAttempt R (pure a) :=
  ⟨leads_pure (Except.ok a)⟩

instance leadsAttempt_throw (e : Rejection) : LeadsAttempt R (throw e : Attempt α) :=
  ⟨leads_pure (Except.error e)⟩

theorem LeadsAttempt.andThen {x : Attempt α} {f : α → Attempt β} (hx : LeadsAttempt R x)
    (hf : ∀ a, LeadsAttempt R (f a)) : LeadsAttempt R (x >>= f) := by
  refine ⟨Leads.andThen hx.run fun r => ?_⟩
  cases r with
  | ok a => exact (hf a).run
  | error e => exact leads_pure _

instance leadsAttempt_bind (x : Attempt α) (f : α → Attempt β) [hx : LeadsAttempt R x]
    [hf : ∀ a, LeadsAttempt R (f a)] : LeadsAttempt R (x >>= f) :=
  hx.andThen hf

instance (c : Prop) [Decidable c] (x y : Attempt α) [LeadsAttempt R x] [LeadsAttempt R y] :
    LeadsAttempt R (if c then x else y) := by
  split <;> infer_instance

instance leadsAttempt_get : LeadsAttempt R (get : Attempt Sketch) :=
  ⟨⟨fun s a s' he => by cases he; exact Lasting.beside (.refl s)⟩⟩

instance leadsAttempt_lift (e : Edit α) [he : Leads R e] : LeadsAttempt R (liftM e : Attempt α) :=
  ⟨Leads.andThen he fun _ => leads_pure _⟩

instance leadsAttempt_liftExcept (x : Except Fault α) : LeadsAttempt R (liftM x : Attempt α) :=
  leadsAttempt_lift (liftM x)

instance leads_reject (e : Rejection) : Leads R (modify fun s : Sketch => s.reject e : Edit Unit) :=
  leads_modify fun s => Lasting.beside (s.beside_reject e)

instance (otherwise : α) (a : Attempt α) [ha : LeadsAttempt R a] :
    Leads R (attempt otherwise a) := by
  refine Leads.andThen ha.run fun r => ?_
  cases r with
  | ok x => exact leads_pure x
  | error e => exact leads_bind _ _

/-! ### Variables and scopes -/

instance (id : Nat) (ref : Ref) : Leads R (modify fun s : Sketch => s.setRef id ref : Edit Unit) :=
  leads_modify fun s => Lasting.beside (s.beside_setRef id ref)

instance (refs : Array Ref) : Leads R (restore refs) :=
  leads_modify fun s => Lasting.beside (s.beside_restoreFrom 0 _)

instance (before : Array Ref) (assigned : BitSet.Plain) :
    Leads R (keepUnassigned before assigned) :=
  leads_modify fun s => Lasting.beside (s.beside_keepFrom assigned 0 _)

instance (dead : Bool) : Leads R (modify fun s : Sketch => { s with dead } : Edit Unit) :=
  leads_modify fun _ => Lasting.beside ⟨⟨rfl, rfl, rfl, rfl, id⟩, rfl, rfl⟩

instance : Leads R openScope :=
  leads_modify fun _ => Lasting.beside ⟨⟨rfl, rfl, rfl, rfl, id⟩, rfl, rfl⟩

instance leads_pushFrame : Leads R pushFrame :=
  leads_modify fun _ => Lasting.beside ⟨⟨rfl, rfl, rfl, rfl, id⟩, rfl, rfl⟩

instance leads_closeScope : Leads R closeScope := by
  refine ⟨fun s u s' h => Lasting.beside ?_⟩
  replace h := get_ok h
  cases hs : s.scopes <;> rw [hs] at h <;> cases h
  · exact .refl s
  · exact ⟨⟨rfl, rfl, rfl, rfl, id⟩, rfl, rfl⟩

instance : Leads R popFrame := by
  refine ⟨fun s u s' h => Lasting.beside ?_⟩
  replace h := get_ok h
  rcases hs : s.frames with _ | ⟨f, _ | ⟨g, fs⟩⟩ <;> rw [hs] at h <;> cases h
  · exact .refl s
  · exact ⟨⟨rfl, rfl, rfl, rfl, id⟩, rfl, rfl⟩
  · exact ⟨⟨rfl, rfl, rfl, rfl, id⟩, rfl, rfl⟩

instance : Leads R rejected := by
  unfold rejected
  infer_instance

/-! ### Uses of values -/

instance leads_ready (op : String) (p : Position) : LeadsAttempt R (ready op p) := by
  have hrest : ∀ s : Sketch, LeadsAttempt R (match s.error with
      | some e => throw e
      | none => pure () : Attempt Unit) := fun s => by split <;> infer_instance
  unfold ready
  infer_instance

instance leads_use (op : String) (v : Option Value) (p : Position) : LeadsAttempt R (use op v p) := by
  unfold use
  refine LeadsAttempt.andThen inferInstance fun s => ?_
  cases v with
  | none => infer_instance
  | some v =>
    have hrest : ∀ x : Option Var, LeadsAttempt R (match x with
        | none => throw (.invalidValue op)
        | some x => do
          if x.ref = noRef then throw (.invalidValue op)
          if s.isClosed x then throw (.outOfScope op x.position p)
          return x.ref : Attempt Ref) := fun x => by cases x <;> infer_instance
    dsimp only
    infer_instance

instance leads_same (op : String) (l r : Ty) (p : Position) : LeadsAttempt R (same op l r p) := by
  unfold same
  infer_instance

instance leads_condition (op : String) (c : Option Value) (p : Position) : LeadsAttempt R (condition op c p) := by
  unfold condition
  infer_instance

instance (name : String) (c : Option Value) (p : Position) :
    Leads R (loopCondition name c p) := by
  have hrest : ∀ e : Option Rejection, LeadsAttempt R (match e with
      | some e => throw e
      | none => do return some (← condition name c p) : Attempt (Option Ref)) := fun e => by
    split <;> infer_instance
  unfold loopCondition
  infer_instance

end Steps

/-! ## Joins -/

/-- A relation that lasts through what joins ask of the generator. -/
class LastingJoin (R : Sketch → Sketch → Prop) : Prop extends Lasting R where
  setPosition : ∀ p, Leads R (setPosition p)
  addIncoming : ∀ id source x, Leads R (instruct (Gen.Generator.addIncoming id source x))
  phi : ∀ join t, Leads R (generate (Gen.Generator.phi join t))
  newBlock : ∀ name, Leads R (newBlock name)
  setBlock : ∀ b, Leads R (setBlock b)

attribute [instance] LastingJoin.setPosition LastingJoin.addIncoming LastingJoin.phi LastingJoin.newBlock
  LastingJoin.setBlock

section Joins

variable [LastingJoin R]

instance (join : BlockId) (v : MergedVar) : Leads R (joinVar join v) := by
  unfold joinVar
  infer_instance

instance leads_merge (join : BlockId) (flows : List EdgeFlow) (n : Nat) (assigned : Option BitSet.Plain) :
    Leads R (merge join flows n assigned) := by
  unfold merge
  refine Leads.andThen inferInstance fun _ => ?_
  split <;> infer_instance

instance (head source : BlockId) (id : Nat) (v : Var) : Leads R (openVar head source id v) := by
  unfold openVar
  infer_instance

instance leads_backEdge (l : Loop) (f : EdgeFlow) : Leads R (backEdge l f) := by
  unfold backEdge
  infer_instance

instance (k : Conditional) (b : BlockId) : Leads R (enterPart k b) := by
  unfold enterPart
  infer_instance

instance leads_endIf (k : Conditional) : Leads R (endIf k) := by
  unfold endIf
  infer_instance

instance leads_endLoop (plan : LoopPlan) (l : Loop) (h : HeadState) : Leads R (endLoop plan l h) := by
  unfold endLoop
  infer_instance

instance leads_deadBlock (name : String) : Leads R (deadBlock name) := by
  unfold deadBlock
  infer_instance

end Joins

/-! ## Control flow -/

/-- A relation that lasts through whatever is asked of the generator. -/
class LastingGen (R : Sketch → Sketch → Prop) : Prop extends Lasting R where
  gen : ∀ (s : Sketch) (g : Gen.Generator), R s { s with gen := g }

section Control

variable [LastingGen R] (position : Position)

instance leads_instruct (f : Gen.Generator → Gen.Generator) : Leads R (instruct f) :=
  leads_modify fun s => LastingGen.gen s _

instance leads_generate (f : Gen.Generator → α × Gen.Generator) : Leads R (generate f) :=
  leads_modifyGet fun s => LastingGen.gen s _

instance : LastingJoin R where
  setPosition _ := leads_instruct _
  addIncoming _ _ _ := leads_instruct _
  phi _ _ := leads_generate _
  newBlock name := by
    refine ⟨fun s b s' h => ?_⟩
    replace h := get_ok h
    obtain ⟨⟨b1, g⟩, t, hg, h⟩ := bind_ok h
    obtain ⟨-, rfl⟩ := lift_ok hg
    cases h
    exact LastingGen.gen _ g
  setBlock b := by
    refine ⟨fun s u s' h => ?_⟩
    replace h := get_ok h
    obtain ⟨g, t, hg, h⟩ := bind_ok h
    obtain ⟨-, rfl⟩ := lift_ok hg
    cases h
    exact LastingGen.gen _ g

instance (e : Gen.Exit) : Leads R (terminate e position) := by
  unfold terminate
  infer_instance

instance (l : Loop) : Leads R (enterLoop l position) := by
  unfold enterLoop
  infer_instance

instance (c : Option Value) (e : Bool) : Leads R (startIf c e position) := by
  unfold startIf
  infer_instance

instance leads_leavePart (k : Conditional) : Leads R (leavePart k position) := by
  unfold leavePart
  infer_instance

instance (name : String) (e : Bool) : Leads R (startLoop name e position) := by
  unfold startLoop
  infer_instance

instance (p : LoopPlan) (l : Loop) : Leads R (leaveBody p l position) := by
  unfold leaveBody
  infer_instance

instance (l : Loop) : Leads R (leaveStep l position) := by
  unfold leaveStep
  infer_instance

instance (l : Loop) : Leads R (leaveDoBody l position) := by
  unfold leaveDoBody
  infer_instance

instance leads_endDo (p : LoopPlan) (l : Loop) (c : Option Ref) : Leads R (endDo p l c position) := by
  unfold endDo
  infer_instance

end Control

end Codesmith.Describe
