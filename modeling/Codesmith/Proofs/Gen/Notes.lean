import Codesmith.Gen.Generator
import Codesmith.Proofs.Gen.MachineModel
import Codesmith.Proofs.Gen.SsaModel

/-!
# What generators remember

Each call to a generator keeps the rules or breaks one, and a call that breaks a rule is owed a failure, with
the block and the position at which it was made. `Generator.Notes` says what becomes of it. A generator
remembers one failure, and it is the first. In single assignment form there is an exception: the draft does not
check that a value to which another is joined can take it, but leaves this to the function, and a failure of the
function is told only if the draft has none.
-/

namespace Codesmith.Gen

/-! ## What calls are owed -/

namespace Generator

/-- The name of the block that is being built. -/
def place : Generator → String
  | machine g => g.place
  | ssa g => g.place

def blockCount : Generator → Nat
  | machine g => g.blocks.size
  | ssa g => g.blockCount

/-- The number of arguments that are defined. -/
def argCount : Generator → Nat
  | machine g => g.args.size
  | ssa g => (g.func.map fun f => f.args.length).getD 0

/-- The value joins others at the head of a block. -/
def joins (id : Ref) : Generator → Bool
  | machine g => (fetch? g.defs id).any fun d => d.place.isNone
  | ssa g => g.func.any fun f => (f.phi? id).isSome

/-- The current block has not ended. -/
def unended (g : Generator) : Except Reason Unit :=
  match g.terminated with
  | .ok true => .error .terminated
  | _ => .ok ()

def failure (g : Generator) (reason : Reason) : Failure :=
  { backend := g.backend, func := g.draft.name, block := g.place, position := g.draft.position, reason }

/-- What is owed if a check does not pass. -/
def owed (g : Generator) : Except Reason Unit → Option Failure
  | .error reason => some (g.failure reason)
  | .ok () => none

end Generator

namespace Failure

/-- The draft remembers the failure; otherwise the function does. -/
def kept (f : Failure) : Bool :=
  match f.backend, f.reason with
  | .ssa, .notPhi _ => false
  | _, _ => true

/-- The error of the function that the failure is, unless the draft remembers it. -/
def buildError? (f : Failure) : Option Ssa.BuildError :=
  match f.backend, f.reason with
  | .ssa, .notPhi id => some (.notPhi id)
  | _, _ => none

theorem kept_iff {f : Failure} : f.kept = true ↔ f.buildError? = none := by
  unfold kept buildError?
  split <;> simp

end Failure

/-! ## Checks -/

namespace Draft

variable {α : Type} {reason : Reason} {p : Prop}

/-- The check does not ask whether a value joins others. -/
def Ordinary {α : Type} (check : Except Reason α) : Prop :=
  ∀ id, check ≠ .error (.notPhi id)

theorem ordinary_ok (a : α) : Ordinary (.ok a) :=
  fun _ => nofun

theorem ordinary_error (h : ∀ id, reason ≠ .notPhi id) : Ordinary (.error reason : Except Reason α) :=
  fun id he => h id (Except.error.inj he)

theorem Ordinary.bind {β : Type} {a : Except Reason α} {f : α → Except Reason β} (ha : Ordinary a)
    (hf : ∀ x, Ordinary (f x)) : Ordinary (a >>= f) := by
  cases a with
  | error reason => exact fun id he => ha id (congrArg _ (Except.error.inj he))
  | ok x => exact hf x

theorem ordinary_rule [Decidable p] (h : ∀ id, reason ≠ .notPhi id) :
    Ordinary (if p then .ok () else .error reason) := by
  split
  · exact ordinary_ok ()
  · exact ordinary_error h

theorem ordinary_unless [Decidable p] {b : Except Reason α} (h : ∀ id, reason ≠ .notPhi id) (hb : Ordinary b) :
    Ordinary (if p then .error reason else b) := by
  split
  · exact ordinary_error h
  · exact hb

theorem ordinary_scalar (t : Ty) : Ordinary (scalar t) :=
  ordinary_unless (fun _ => nofun) (ordinary_ok ())

variable (d : Draft)

theorem ordinary_defined (x : Ref) : Ordinary (d.defined x) :=
  ordinary_unless (fun _ => nofun) (ordinary_ok ())

theorem ordinary_operand (x : Ref) (t : Ty) : Ordinary (d.operand x t) :=
  (d.ordinary_defined x).bind fun _ => ordinary_rule fun _ => nofun

theorem ordinary_pointer (p : Ref) : Ordinary (d.pointer p) :=
  (d.ordinary_defined p).bind fun _ => ordinary_rule fun _ => nofun

theorem ordinary_index (i : Ref) : Ordinary (d.index i) := by
  refine (d.ordinary_defined i).bind fun _ => ?_
  split <;> first | exact ordinary_error fun _ => nofun | exact ordinary_ok ()

theorem ordinary_binaryKind (op : Op) (k : Kind) : Ordinary (binaryKind op k) :=
  ordinary_unless (fun _ => nofun) (ordinary_unless (fun _ => nofun)
    (ordinary_unless (fun _ => nofun) (ordinary_ok ())))

theorem ordinary_unaryType (op : Op) (t : Ty) : Ordinary (unaryType op t) :=
  ordinary_unless (fun _ => nofun) (ordinary_unless (fun _ => nofun) (ordinary_ok ()))

theorem ordinary_compareKind (c : Cond) (k : Kind) : Ordinary (compareKind c k) :=
  ordinary_unless (fun _ => nofun) (ordinary_unless (fun _ => nofun) (ordinary_ok ()))

theorem ordinary_checkOperation (op : Operation) : Ordinary (d.checkOperation op) := by
  cases op with
  | const t bits => exact ordinary_scalar t
  | binary op t l r =>
    exact (ordinary_scalar t).bind fun _ => (ordinary_binaryKind op _).bind fun _ =>
      (d.ordinary_operand l t).bind fun _ => d.ordinary_operand r t
  | unary op t x =>
    exact (ordinary_scalar t).bind fun _ => (ordinary_unaryType op t).bind fun _ => d.ordinary_operand x t
  | compare c t l r =>
    exact (ordinary_scalar t).bind fun _ => (ordinary_compareKind c _).bind fun _ =>
      (d.ordinary_operand l t).bind fun _ => d.ordinary_operand r t
  | convert target source x =>
    refine (ordinary_scalar target).bind fun _ => (ordinary_scalar source).bind fun _ => ?_
    exact ordinary_unless (fun _ => nofun) (d.ordinary_operand x source)
  | ptrAdd t p i scale => exact (d.ordinary_pointer p).bind fun _ => d.ordinary_index i
  | ptrDiff p q scale => exact (d.ordinary_pointer p).bind fun _ => d.ordinary_pointer q
  | load t p => exact (d.ordinary_pointer p).bind fun _ => ordinary_scalar t

theorem ordinary_checkStore (t : Ty) (p x : Ref) : Ordinary (d.checkStore t p x) :=
  (d.ordinary_pointer p).bind fun _ => (d.ordinary_operand x t).bind fun _ => ordinary_scalar t

theorem ordinary_checkBlock (n : Nat) (b : BlockId) : Ordinary (checkBlock n b) :=
  ordinary_rule fun _ => nofun

theorem ordinary_checkExit (n : Nat) (e : Exit) : Ordinary (d.checkExit n e) := by
  cases e with
  | jump t => exact ordinary_checkBlock n t
  | branch c yes no =>
    exact (d.ordinary_operand c .bool).bind fun _ => (ordinary_checkBlock n yes).bind fun _ =>
      ordinary_checkBlock n no
  | ret x =>
    cases x with
    | none => exact ordinary_rule fun _ => nofun
    | some x => exact ordinary_unless (fun _ => nofun) (d.ordinary_operand x _)

end Draft

namespace Generator

theorem ordinary_unended (g : Generator) : Draft.Ordinary g.unended := by
  unfold unended
  split
  · exact Draft.ordinary_error fun _ => nofun
  · exact Draft.ordinary_ok ()

/-! ## What generators remember -/

/-- The error that the function remembers. -/
def buildError : Generator → Option Ssa.BuildError
  | machine _ => none
  | ssa g => g.func.bind Ssa.Func.error

/-- A generator that works on a function: it was begun and is not finished. -/
structure InUse (g : Generator) (b : Backend) (name func : String) : Prop where
  backend : g.backend = b
  named : g.draft.name = name
  begun : g.draft.begun = true
  finalized : g.draft.finalized = false
  form : match g with
    | machine _ => b = .machine
    | ssa g => b = .ssa ∧ ∃ f, g.func = some f ∧ f.name = func ∧ g.current < f.blocks.size

/-- What a call that is owed a failure, or none, makes of a generator. -/
structure Notes (g : Generator) (r : Option Failure) (g' : Generator) : Prop where
  inUse : ∀ b name func, g.InUse b name func → g'.InUse b name func
  error : g'.draft.error = g.draft.error.or (r.filter Failure.kept)
  buildError : g'.draft.error = none → g'.buildError = g.buildError.or (r.bind Failure.buildError?)

end Generator

namespace MachineDraft

variable {g : MachineDraft} {b : Backend} {name func : String}

theorem kept_failure (h : (Generator.machine g).InUse b name func) (reason : Reason) :
    ((Generator.machine g).failure reason).kept = true := by
  have hb : (Generator.machine g).backend = .machine := h.backend.trans h.form
  simp only [Failure.kept, Generator.failure, hb]

/-- The draft changes only in the types that it knows. -/
theorem notes_types {g' : MachineDraft} (types : Array Ty)
    (hdraft : g'.draft = { g.draft with types }) : (Generator.machine g).Notes none (.machine g') where
  inUse b name func h := by
    refine ⟨?_, ?_, ?_, ?_, h.form⟩ <;> simp only [Generator.backend, Generator.draft, hdraft]
    exacts [h.backend, h.named, h.begun, h.finalized]
  error := by simp [Generator.draft, hdraft]
  buildError _ := rfl

section

variable (h : (Generator.machine g).InUse b name func)
include h

theorem notes_fail (reason : Reason) :
    (Generator.machine g).Notes (some ((Generator.machine g).failure reason)) (.machine (g.fail reason)) where
  inUse b name func h := ⟨h.backend, h.named, h.begun, h.finalized, h.form⟩
  error := by
    rw [Option.filter_some, if_pos (kept_failure h reason)]
    rfl
  buildError he := absurd he (Draft.error_fail _ _ _)

theorem notes_guarded {α : Type} {check : Except Reason Unit} (otherwise : α)
    {act : MachineDraft → α × MachineDraft} (hact : ∃ types, (act g).2.draft = { g.draft with types }) :
    (Generator.machine g).Notes ((Generator.machine g).owed check)
      (.machine (g.guarded (do g.draft.ready; check) otherwise act).2) := by
  obtain ⟨types, hact⟩ := hact
  cases herr : g.draft.error with
  | some e =>
    -- What was remembered stays, whatever the check says.
    have hready : g.draft.ready = .error e.reason := by rw [Draft.ready, herr]
    rw [hready]
    have hnotes := notes_fail h e.reason
    refine ⟨hnotes.inUse, ?_, fun he => absurd he (Draft.error_fail _ _ _)⟩
    show g.draft.error.or _ = g.draft.error.or _
    rw [herr]
    rfl
  | none =>
    have hready : g.draft.ready = .ok () := Draft.ready_ok_iff.2 ⟨herr, h.begun, h.finalized⟩
    rw [hready]
    cases check with
    | error reason => exact notes_fail h reason
    | ok u => exact notes_types _ hact

end

theorem checkPhi_eq (g : MachineDraft) (id : Ref) :
    g.checkPhi id = if (Generator.machine g).joins id then .ok () else .error (.notPhi id) := by
  cases hj : (Generator.machine g).joins id <;> simp only [Generator.joins] at hj <;> unfold checkPhi <;>
    rcases hd : fetch? g.defs id with _ | ⟨l, _ | k, es⟩ <;> simp_all

theorem live_bind (g : MachineDraft) (check : Except Reason Unit) :
    (do g.live; check) = (do g.draft.ready; (Generator.machine g).unended; check) := by
  unfold live
  cases g.draft.ready <;> rfl

/-- What a function is owed at its beginning is remembered. -/
theorem draft_defineArgs (ts : List Ty) (g : MachineDraft) (i : Nat) : ∃ types,
    (g.defineArgs i ts).draft = { g.draft with
      types
      error := g.draft.error.or ((ts.find? fun t => t.kind = .invalid).map fun t =>
        { backend := g.draft.backend, func := g.draft.name, block := "entry",
          position := g.draft.position, reason := .valueType t }) } := by
  induction ts generalizing g i with
  | nil => exact ⟨g.draft.types, by simp [defineArgs]⟩
  | cons t ts ih =>
    rw [defineArgs]
    by_cases ht : t.kind = .invalid
    · rw [Draft.scalar, if_pos ht, List.find?_cons_of_pos (by simpa using ht)]
      exact ⟨g.draft.types, rfl⟩
    · rw [Draft.scalar, if_neg ht, List.find?_cons_of_neg (by simpa using ht)]
      exact ih _ _

end MachineDraft

namespace SsaDraft

variable {g : SsaDraft} {b : Backend} {name func : String}
variable {g' : SsaDraft} {f f' : Ssa.Func} {check : Except Reason Unit}

theorem notes_fail (g : SsaDraft) {reason : Reason} (hr : ∀ id, reason ≠ .notPhi id) :
    (Generator.ssa g).Notes (some ((Generator.ssa g).failure reason)) (.ssa (g.fail reason)) where
  inUse b name func h := ⟨h.backend, h.named, h.begun, h.finalized, h.form⟩
  error := by
    have hkept : ((Generator.ssa g).failure reason).kept = true := by
      unfold Failure.kept
      split
      · rename_i id _ hid
        exact absurd hid (hr id)
      · rfl
    rw [Option.filter_some, if_pos hkept]
    rfl
  buildError he := absurd he (Draft.error_fail _ _ _)

/-- The draft changes in the types that it knows, and the function only grows. -/
structure Grows (g g' : SsaDraft) (f f' : Ssa.Func) : Prop where
  draft : ∃ types, g'.draft = { g.draft with types }
  func : g'.func = some f'
  current : g'.current = g.current
  name : f'.name = f.name
  blocks : f.blocks.size ≤ f'.blocks.size

section

variable (hg : g.Grows g' f f') (hf : g.func = some f)
include hg hf

theorem Grows.inUse (h : (Generator.ssa g).InUse b name func) : (Generator.ssa g').InUse b name func := by
  obtain ⟨types, hdraft⟩ := hg.draft
  obtain ⟨hb, f1, hf1, hname, hcur⟩ := h.form
  cases hf1.symm.trans hf
  refine ⟨?_, ?_, ?_, ?_, hb, f', hg.func, hg.name.trans hname, hg.current ▸ hcur.trans_le hg.blocks⟩ <;>
    simp only [Generator.backend, Generator.draft, hdraft]
  exacts [h.backend, h.named, h.begun, h.finalized]

theorem Grows.notes (herr : f'.error = f.error) : (Generator.ssa g).Notes none (.ssa g') where
  inUse _ _ _ h := hg.inUse hf h
  error := by
    obtain ⟨types, hdraft⟩ := hg.draft
    simp [Generator.draft, hdraft]
  buildError _ := by simp [Generator.buildError, hf, hg.func, herr]

end

theorem notes_guarded (h : (Generator.ssa g).InUse b name func) {α : Type} (hcheck : Draft.Ordinary check)
    (otherwise : α) {act : Ssa.Func → α × SsaDraft} {r : Option Failure}
    (hr : check ≠ .ok () → r = (Generator.ssa g).owed check)
    (hact : ∀ f, g.func = some f → g.current < f.blocks.size → g.draft.error = none → check = .ok () →
      (Generator.ssa g).Notes r (.ssa (act f).2)) :
    (Generator.ssa g).Notes r (.ssa (g.guarded (do g.draft.ready; check) otherwise act).2) := by
  obtain ⟨-, f, hf, -, hcur⟩ := h.form
  cases herr : g.draft.error with
  | some e =>
    -- What was remembered stays, whatever the check says.
    have hready : g.draft.ready = .error e.reason := by rw [Draft.ready, herr]
    rw [hready]
    refine ⟨fun b name func h => ⟨h.backend, h.named, h.begun, h.finalized, h.form⟩, ?_, fun he =>
      absurd he (Draft.error_fail _ _ _)⟩
    show g.draft.error.or _ = g.draft.error.or _
    rw [herr]
    rfl
  | none =>
    have hready : g.draft.ready = .ok () := Draft.ready_ok_iff.2 ⟨herr, h.begun, h.finalized⟩
    rw [hready]
    cases check with
    | error reason =>
      rw [hr nofun]
      exact notes_fail g fun id hid => hcheck id (congrArg _ hid)
    | ok u =>
      have hdone := hact f hf hcur herr rfl
      show (Generator.ssa g).Notes r (.ssa (g.guarded (.ok ()) otherwise act).2)
      rwa [guarded_ok hf rfl]

/-- An expression is added to the current block, which has not ended. -/
theorem grows_add (hf : g.func = some f) (hcur : g.current < f.blocks.size)
    (hlive : (Generator.ssa g).unended = .ok ()) (x : Ssa.Expr) (t : Ty) :
    ∃ f', g.Grows (g.add f x t).2 f f' ∧ f'.error = f.error := by
  have hb := Array.getElem?_eq_getElem hcur
  have hterm : f.blocks[g.current].term = none := by
    by_contra hne
    have hsome : f.blocks[g.current].term.isSome = true := Option.isSome_iff_ne_none.2 hne
    have hended : (Generator.ssa g).terminated = .ok true := by
      simp only [Generator.terminated, SsaDraft.terminated, begunFunc, hf, bind, Except.bind,
        Ssa.Func.terminated, fetch_natCast hb, Except.map, hsome]
    rw [Generator.unended, hended] at hlive
    cases hlive
  rw [add, Ssa.Func.add_eq hb (.inl hterm)]
  dsimp only
  have hid : ((f.entries.size : Nat) : Int) ≠ noRef := by simp [noRef]
  rw [if_neg hid]
  have hsize : f.blocks.size ≤ (f.added g.current x t g.draft.position).blocks.size := by
    simp [Ssa.Func.added]
  split
  · exact ⟨_, ⟨⟨g.draft.types, rfl⟩, rfl, rfl, rfl, hsize⟩, rfl⟩
  · exact ⟨_, ⟨⟨_, rfl⟩, rfl, rfl, rfl, hsize⟩, rfl⟩

theorem live_bind (g : SsaDraft) (check : Except Reason Unit) :
    (do g.live; check) = (do g.draft.ready; (Generator.ssa g).unended; check) := by
  unfold live
  cases g.draft.ready <;> rfl

theorem notes_added (h : (Generator.ssa g).InUse b name func) (hcheck : Draft.Ordinary check) (x : Ssa.Expr)
    (t : Ty) : (Generator.ssa g).Notes ((Generator.ssa g).owed (do (Generator.ssa g).unended; check))
      (.ssa (g.guarded (do g.live; check) noRef fun f => g.add f x t).2) := by
  rw [live_bind]
  refine notes_guarded h ((Generator.ordinary_unended _).bind fun _ => hcheck) noRef (fun _ => rfl)
    fun f hf hcur _ hok => ?_
  obtain ⟨f', hgrows, herr⟩ := grows_add hf hcur (seq_ok_iff.1 hok).1 x t
  rw [hok]
  exact hgrows.notes hf herr

end SsaDraft

/-! ## Calls -/

namespace Generator

variable {g : Generator} {b : Backend} {name func : String}

theorem notes_self (g : Generator) : g.Notes none g where
  inUse _ _ _ h := h
  error := by simp
  buildError _ := by simp

theorem notes_setPosition (g : Generator) (p : Option Position) : g.Notes none (g.setPosition p) := by
  have hor : ∀ {α : Type} (a : Option α), a = a.or none := fun a => Option.or_none.symm
  cases g with
  | machine g =>
    exact ⟨fun _ _ _ h => ⟨h.backend, h.named, h.begun, h.finalized, h.form⟩, hor g.draft.error, fun _ => rfl⟩
  | ssa g =>
    exact ⟨fun _ _ _ h => ⟨h.backend, h.named, h.begun, h.finalized, h.form⟩, hor g.draft.error,
      fun _ => hor (g.func.bind Ssa.Func.error)⟩

theorem InUse.arg (h : g.InUse b name func) (i : Int) : ∃ r g', g.arg i = .ok (r, g') ∧
    g.Notes (g.owed (if 0 ≤ i ∧ i < g.argCount then .ok () else .error (.noArgument i))) g' := by
  cases g with
  | machine g =>
    have hsome : (fetch? g.args i).isSome = true ↔ 0 ≤ i ∧ i < (machine g).argCount := fetch?_isSome_iff
    rw [Generator.arg, MachineDraft.arg]
    cases hi : fetch? g.args i with
    | some r =>
      rw [if_pos (hsome.1 (by rw [hi]; rfl))]
      exact ⟨r, _, rfl, notes_self _⟩
    | none =>
      rw [if_neg fun hin => by simpa [hi] using hsome.2 hin]
      exact ⟨noRef, _, rfl, MachineDraft.notes_fail h _⟩
  | ssa g =>
    obtain ⟨-, f, hf, -⟩ := h.form
    have hcount : (ssa g).argCount = f.args.length := by simp only [argCount, hf]; rfl
    have hsome : (fetch? f.args.toArray i).isSome = true ↔ 0 ≤ i ∧ i < (ssa g).argCount := by
      rw [fetch?_isSome_iff, List.size_toArray, hcount]
    rw [Generator.arg, SsaDraft.arg, SsaDraft.begunFunc, hf]
    cases hi : fetch? f.args.toArray i with
    | some r =>
      rw [if_pos (hsome.1 (by rw [hi]; rfl))]
      exact ⟨r, _, by simp only [bind, Except.bind, hi]; rfl, notes_self _⟩
    | none =>
      rw [if_neg fun hin => by simpa [hi] using hsome.2 hin]
      exact ⟨noRef, _, by simp only [bind, Except.bind, hi]; rfl, SsaDraft.notes_fail g fun _ => by simp⟩

theorem InUse.newBlock (h : g.InUse b name func) (label : String) :
    ∃ l g', g.newBlock label = .ok (l, g') ∧ g.Notes none g' := by
  cases g with
  | machine g => exact ⟨_, _, rfl, MachineDraft.notes_types g.draft.types rfl⟩
  | ssa g =>
    obtain ⟨-, f, hf, -⟩ := h.form
    simp only [Generator.newBlock, SsaDraft.newBlock, SsaDraft.begunFunc, hf, bind, Except.bind]
    have hgrows : g.Grows { g with func := some (f.newBlock label).2 } f (f.newBlock label).2 :=
      ⟨⟨g.draft.types, rfl⟩, rfl, rfl, rfl, by simp [Ssa.Func.newBlock]⟩
    exact ⟨_, _, rfl, hgrows.notes hf rfl⟩

theorem blockCount_ssa {g : SsaDraft} {f : Ssa.Func} (hf : g.func = some f) :
    (ssa g).blockCount = f.blocks.size := by
  rw [blockCount, SsaDraft.blockCount, hf]
  rfl

section

variable (h : g.InUse b name func)
include h

theorem InUse.setBlock (l : BlockId) : ∃ g', g.setBlock l = .ok g' ∧
    g.Notes (g.owed (if 0 ≤ l ∧ l < g.blockCount then .ok () else .error (.noBlock l))) g' := by
  cases g with
  | machine g =>
    rw [Generator.setBlock, MachineDraft.setBlock]
    by_cases hl : 0 ≤ l ∧ l < g.blocks.size
    · rw [if_pos hl, if_pos (show 0 ≤ l ∧ l < (machine g).blockCount from hl)]
      exact ⟨_, rfl, MachineDraft.notes_types g.draft.types rfl⟩
    · rw [if_neg hl, if_neg (show ¬ (0 ≤ l ∧ l < (machine g).blockCount) from hl)]
      exact ⟨_, rfl, MachineDraft.notes_fail h _⟩
  | ssa g =>
    obtain ⟨-, f, hf, -⟩ := h.form
    have hcount : (ssa g).blockCount = f.blocks.size := blockCount_ssa hf
    rw [Generator.setBlock, SsaDraft.setBlock, SsaDraft.begunFunc, hf]
    by_cases hl : 0 ≤ l ∧ l < f.blocks.size
    · rw [if_pos (show 0 ≤ l ∧ l < (ssa g).blockCount from hcount ▸ hl)]
      refine ⟨.ssa { g with current := l.toNat }, by simp only [bind, Except.bind, if_pos hl, ← hf]; rfl,
        fun b name func h => ?_, Option.or_none.symm, fun _ => Option.or_none.symm⟩
      obtain ⟨hb, f1, hf1, hname, -⟩ := h.form
      obtain rfl := Option.some.inj (hf1.symm.trans hf)
      exact ⟨h.backend, h.named, h.begun, h.finalized, hb, f1, hf, hname, (Int.toNat_lt hl.1).2 hl.2⟩
    · rw [if_neg (show ¬ (0 ≤ l ∧ l < (ssa g).blockCount) from hcount ▸ hl)]
      exact ⟨.ssa (g.fail (.noBlock l)), by simp only [bind, Except.bind, if_neg hl]; rfl,
        SsaDraft.notes_fail g fun _ => by simp⟩

theorem InUse.value (op : Operation) :
    g.Notes (g.owed (do g.unended; g.draft.checkOperation op)) (g.value op).2 := by
  cases g with
  | machine g =>
    show (machine g).Notes _ (.machine (g.value op).2)
    rw [MachineDraft.value, MachineDraft.live_bind]
    exact MachineDraft.notes_guarded h noRef (by exact ⟨(g.draft.setType g.defs.size op.ty).types, rfl⟩)
  | ssa g => exact SsaDraft.notes_added h (Draft.ordinary_checkOperation _ op) _ _

theorem InUse.store (t : Ty) (p x : Ref) :
    g.Notes (g.owed (do g.unended; g.draft.checkStore t p x)) (g.store t p x) := by
  cases g with
  | machine g =>
    simp only [Generator.store, MachineDraft.store, MachineDraft.live_bind]
    exact MachineDraft.notes_guarded h () ⟨g.draft.types, rfl⟩
  | ssa g => exact SsaDraft.notes_added h (Draft.ordinary_checkStore _ t p x) _ _

theorem InUse.terminate (e : Exit) :
    g.Notes (g.owed (do g.unended; g.draft.checkExit g.blockCount e)) (g.terminate e) := by
  cases g with
  | machine g =>
    simp only [Generator.terminate, MachineDraft.terminate, MachineDraft.live_bind]
    exact MachineDraft.notes_guarded h () ⟨g.draft.types, rfl⟩
  | ssa g => exact SsaDraft.notes_added h (Draft.ordinary_checkExit _ _ e) _ _

theorem InUse.phi (join : BlockId) (t : Ty) :
    g.Notes (g.owed (do Draft.checkBlock g.blockCount join; Draft.scalar t)) (g.phi join t).2 := by
  cases g with
  | machine g =>
    show (machine g).Notes _ (.machine (g.phi join t).2)
    rw [MachineDraft.phi]
    exact MachineDraft.notes_guarded h noRef (by exact ⟨(g.draft.setType g.defs.size t).types, rfl⟩)
  | ssa g =>
    refine SsaDraft.notes_guarded h ((Draft.ordinary_checkBlock _ _).bind fun _ => Draft.ordinary_scalar t)
      noRef (fun _ => rfl) fun f hf hcur _ hok => ?_
    obtain ⟨h0, hlt⟩ := Draft.checkBlock_ok_iff.1 (seq_ok_iff.1 hok).1
    obtain ⟨l, rfl⟩ := Int.eq_ofNat_of_zero_le h0
    have hl : l < f.blocks.size := Int.ofNat_lt.1 (blockCount_ssa hf ▸ hlt)
    have hok : (do Draft.checkBlock (ssa g).blockCount l; Draft.scalar t) = .ok () := hok
    rw [hok, Ssa.Func.add_eq (Array.getElem?_eq_getElem hl) (.inr rfl)]
    have hgrows : g.Grows
        { g with
          func := some (f.added l (.phi []) t g.draft.position)
          draft := g.draft.setType ((f.entries.size : Int)).toNat t } f
        (f.added l (.phi []) t g.draft.position) :=
      ⟨⟨_, rfl⟩, rfl, rfl, rfl, by simp [Ssa.Func.added]⟩
    exact hgrows.notes hf rfl

theorem InUse.addIncoming (id : Ref) (source : BlockId) (x : Ref) : g.Notes (g.owed (do
      Draft.checkBlock g.blockCount source
      if g.joins id then .ok () else .error (.notPhi id))) (g.addIncoming id source x) := by
  cases g with
  | machine g =>
    simp only [Generator.addIncoming, MachineDraft.addIncoming, MachineDraft.checkPhi_eq]
    exact MachineDraft.notes_guarded h () ⟨g.draft.types, rfl⟩
  | ssa g =>
    have hbackend : (ssa g).backend = .ssa := h.backend.trans h.form.1
    refine SsaDraft.notes_guarded h (Draft.ordinary_checkBlock _ _) () (fun hno => ?_) fun f hf hcur _ hok => ?_
    · cases hcheck : Draft.checkBlock (ssa g).blockCount source with
      | ok u => exact absurd hcheck hno
      | error reason => rw [show g.blockCount = (ssa g).blockCount from rfl, hcheck]; rfl
    · have hjoins : (ssa g).joins id = (f.phi? id).isSome := by simp [joins, hf]
      rw [show Draft.checkBlock (ssa g).blockCount source = .ok () from hok, hjoins]
      show (ssa g).Notes _ (.ssa { g with func := some (f.addIncoming id source x) })
      have hgrows : g.Grows { g with func := some (f.addIncoming id source x) } f (f.addIncoming id source x) := by
        rw [Ssa.Func.addIncoming]
        split <;> exact ⟨⟨g.draft.types, rfl⟩, rfl, rfl, rfl, le_rfl⟩
      cases hphi : f.phi? id with
      | some bs => exact hgrows.notes hf (by rw [Ssa.Func.addIncoming, hphi]; rfl)
      | none =>
        have hadd : f.addIncoming id source x = f.fail (.notPhi id) := by rw [Ssa.Func.addIncoming, hphi]
        -- The draft takes no notice, but the function does.
        refine ⟨fun _ _ _ h => hgrows.inUse hf h, ?_, fun _ => ?_⟩
        · show g.draft.error = g.draft.error.or (Option.filter Failure.kept (some ((ssa g).failure (.notPhi id))))
          have hkept : ((ssa g).failure (.notPhi id)).kept = false := by simp only [Failure.kept, failure, hbackend]
          rw [Option.filter_some, hkept]
          exact Option.or_none.symm
        · show (f.addIncoming id source x).error =
            (g.func.bind Ssa.Func.error).or ((ssa g).failure (.notPhi id)).buildError?
          have hcause : ((ssa g).failure (.notPhi id)).buildError? = some (.notPhi id) := by
            simp only [Failure.buildError?, failure, hbackend]
          rw [hadd, hf, hcause]
          rfl

end

/-! ## Failures -/

/-- Something failed. -/
def Broken (g : Generator) : Prop :=
  ∃ b name func, g.InUse b name func ∧ (g.draft.error ≠ none ∨ g.buildError ≠ none)

variable {g' : Generator} {r : Option Failure}

/-- What is owed is remembered, and so is what was remembered before. -/
theorem InUse.broken (h : g.InUse b name func) (hn : g.Notes r g')
    (hr : r ≠ none ∨ g.draft.error ≠ none ∨ g.buildError ≠ none) : g'.Broken := by
  refine ⟨b, name, func, hn.inUse b name func h, or_iff_not_imp_left.2 fun he => ?_⟩
  have he := not_not.1 he
  obtain ⟨herror, hkept⟩ := Option.or_eq_none_iff.1 (hn.error.symm.trans he)
  rw [hn.buildError he, Ne, Option.or_eq_none_iff]
  rintro ⟨hbuild, hcause⟩
  rcases hr with hr | hr | hr
  · obtain ⟨f, rfl⟩ := Option.ne_none_iff_exists'.1 hr
    rw [Option.filter_some, if_pos (Failure.kept_iff.2 hcause)] at hkept
    cases hkept
  · exact hr herror
  · exact hr hbuild

/-- After a failure nothing mends a generator. -/
theorem Broken.notes (h : g.Broken) (hn : ∀ b name func, g.InUse b name func → g.Notes r g') : g'.Broken := by
  obtain ⟨b, name, func, huse, he⟩ := h
  exact huse.broken (hn b name func huse) (.inr he)

end Generator

end Codesmith.Gen
