import Codesmith.Proofs.Fetch
import Codesmith.Gen.Draft

/-!
# What the checks of a call say

A check passes exactly if the types of the values concerned are what the call needs. The rules are
stated over any assignment of types to values, so they survive a renaming of values.
-/

namespace Codesmith

variable {ε : Type} {p : Prop} {e : ε}

/-! ## Types -/

namespace Ty

variable {a b : Ty}

mutual

theorem equal_refl : ∀ a : Ty, a.equal a = true
  | .void => rfl
  | .bool => rfl
  | .int .. => by simp [equal]
  | .ptr a => by simp [equal, equal_refl a]
  | .array a _ => by simp [equal, equal_refl a]
  | .struct fs => by simp [equal, equalFields_refl fs]
  | .func ps r => by simp [equal, equal_refl r, equalAll_refl ps]

theorem equalFields_refl : ∀ fs : List (Field Ty), equalFields fs fs = true
  | [] => rfl
  | ⟨_, _, a⟩ :: fs => by simp [equalFields, equal_refl a, equalFields_refl fs]

theorem equalAll_refl : ∀ as : List Ty, equalAll as as = true
  | [] => rfl
  | a :: as => by simp [equalAll, equal_refl a, equalAll_refl as]

end

mutual

theorem eq_of_equal : ∀ {a b : Ty}, a.equal b = true → a = b
  | .void, .void, _ => rfl
  | .bool, .bool, _ => rfl
  | .int .., .int .., h => by simpa [equal] using h
  | .ptr a, .ptr b, h => by
    rw [equal] at h
    rw [eq_of_equal h]
  | .array a _, .array b _, h => by
    simp only [equal, Bool.and_eq_true, beq_iff_eq] at h
    rw [h.1, eq_of_equal h.2]
  | .struct fs, .struct gs, h => by
    rw [equal] at h
    rw [eq_of_equalFields h]
  | .func ps r, .func qs t, h => by
    simp only [equal, Bool.and_eq_true] at h
    rw [eq_of_equal h.1, eq_of_equalAll h.2]

theorem eq_of_equalFields : ∀ {fs gs : List (Field Ty)}, equalFields fs gs = true → fs = gs
  | [], [], _ => rfl
  | ⟨_, _, a⟩ :: fs, ⟨_, _, b⟩ :: gs, h => by
    simp only [equalFields, Bool.and_eq_true, beq_iff_eq] at h
    rw [h.1.1.1, h.1.1.2, eq_of_equal h.1.2, eq_of_equalFields h.2]

theorem eq_of_equalAll : ∀ {as bs : List Ty}, equalAll as bs = true → as = bs
  | [], [], _ => rfl
  | a :: as, b :: bs, h => by
    simp only [equalAll, Bool.and_eq_true] at h
    rw [eq_of_equal h.1, eq_of_equalAll h.2]

end

@[simp] theorem equal_iff : a.equal b = true ↔ a = b :=
  ⟨eq_of_equal, fun h => h ▸ equal_refl a⟩

@[simp] theorem equal_eq_false_iff : a.equal b = false ↔ a ≠ b := by
  rw [← Bool.not_eq_true, equal_iff]

@[simp] theorem isVoid_iff : a.isVoid = true ↔ a = .void := by
  cases a <;> simp [isVoid]

@[simp] theorem isBool_iff : a.isBool = true ↔ a = .bool := by
  cases a <;> simp [isBool]

theorem ne_void_of_kind (h : a.kind ≠ .invalid) : a ≠ .void := by
  rintro rfl
  exact h rfl

theorem ne_void_of_isPtr (h : a.isPtr = true) : a ≠ .void := by
  rintro rfl
  cases h

end Ty

theorem seq_ok_iff {α : Type} {a : Except ε Unit} {b : Unit → Except ε α} {x : α} :
    (a >>= b) = .ok x ↔ a = .ok () ∧ b () = .ok x := by
  cases a with
  | error e => simp [bind, Except.bind]
  | ok u => exact ⟨fun h => ⟨rfl, h⟩, fun h => h.2⟩

theorem ite_ok_iff [Decidable p] : (if p then .error e else .ok () : Except ε Unit) = .ok () ↔ ¬ p := by
  split <;> simp_all

theorem ite_ok_iff' [Decidable p] : (if p then .ok () else .error e : Except ε Unit) = .ok () ↔ p := by
  split <;> simp_all

namespace Gen

/-! ## Rules -/

namespace Operation

/-- The operands have the types that the operation needs. -/
def Fits (ty : Ref → Ty) : Operation → Prop
  | const t _ => t.kind ≠ .invalid
  | binary op t l r =>
    t.kind ≠ .invalid ∧ Draft.binaryKind op t.kind = .ok () ∧ ty l = t ∧ ty r = t
  | unary op t x => t.kind ≠ .invalid ∧ Draft.unaryType op t = .ok () ∧ ty x = t
  | compare c t l r =>
    t.kind ≠ .invalid ∧ Draft.compareKind c t.kind = .ok () ∧ ty l = t ∧ ty r = t
  | convert target source x =>
    target.kind ≠ .invalid ∧ source.kind ≠ .invalid ∧
      ¬ (target.kind = .ptr ∧ source.kind ≠ .ptr) ∧ ty x = source
  | ptrAdd _ p i _ =>
    (ty p).isPtr = true ∧ (ty i).kind ≠ .invalid ∧ (ty i).kind ≠ .bool ∧ (ty i).kind ≠ .ptr
  | ptrDiff p q _ => (ty p).isPtr = true ∧ (ty q).isPtr = true
  | load t p => (ty p).isPtr = true ∧ t.kind ≠ .invalid

def rename (f : Ref → Ref) : Operation → Operation
  | const t x => const t x
  | binary op t l r => binary op t (f l) (f r)
  | unary op t x => unary op t (f x)
  | compare c t l r => compare c t (f l) (f r)
  | convert target source x => convert target source (f x)
  | ptrAdd t p i scale => ptrAdd t (f p) (f i) scale
  | ptrDiff p q scale => ptrDiff (f p) (f q) scale
  | load t p => load t (f p)

theorem fits_rename {ty ty' : Ref → Ty} {f : Ref → Ref} (h : ∀ x, ty' (f x) = ty x)
    (op : Operation) : (op.rename f).Fits ty' ↔ op.Fits ty := by
  cases op <;> simp only [rename, Fits, h]

@[simp] theorem ty_rename (f : Ref → Ref) (op : Operation) : (op.rename f).ty = op.ty := by
  cases op <;> rfl

end Operation

namespace Exit

/-- The exit suits a function with `n` blocks and a result of the given type. -/
def Fits (result : Ty) (n : Nat) (ty : Ref → Ty) : Exit → Prop
  | jump t => 0 ≤ t ∧ t < n
  | branch c yes no => ty c = .bool ∧ (0 ≤ yes ∧ yes < n) ∧ (0 ≤ no ∧ no < n)
  | ret none => result = .void
  | ret (some x) => result ≠ .void ∧ ty x = result

def rename (f : Ref → Ref) : Exit → Exit
  | jump t => jump t
  | branch c yes no => branch (f c) yes no
  | ret x => ret (x.map f)

theorem fits_rename {ty ty' : Ref → Ty} {f : Ref → Ref} (h : ∀ x, ty' (f x) = ty x) (result : Ty)
    (n : Nat) (e : Exit) : (e.rename f).Fits result n ty' ↔ e.Fits result n ty := by
  cases e with
  | jump t => rfl
  | branch c yes no => simp only [rename, Fits, h]
  | ret x => cases x <;> simp [rename, Fits, h]

@[simp] theorem targets_rename (f : Ref → Ref) (e : Exit) : (e.rename f).targets = e.targets := by
  cases e <;> rfl

@[simp] theorem reads_rename (f : Ref → Ref) (e : Exit) : (e.rename f).reads = e.reads.map f := by
  cases e with
  | jump t => rfl
  | branch c yes no => rfl
  | ret x => cases x <;> rfl

end Exit

/-! ## Checks -/

namespace Draft

variable (d : Draft)
variable {x p : Ref} {t : Ty} {n : Nat}

theorem defined_ok_iff : d.defined x = .ok () ↔ d.typeOf x ≠ .void := by
  simp [defined]

theorem operand_ok_iff (ht : t ≠ .void) : d.operand x t = .ok () ↔ d.typeOf x = t := by
  simp only [operand, seq_ok_iff, defined_ok_iff, ite_ok_iff', Bool.or_eq_true, Ty.isVoid_iff,
    Ty.equal_iff, ht, false_or]
  exact and_iff_right_of_imp fun h => h ▸ ht

theorem scalar_ok_iff : scalar t = .ok () ↔ t.kind ≠ .invalid := by
  rw [scalar, ite_ok_iff]

theorem pointer_ok_iff : d.pointer p = .ok () ↔ (d.typeOf p).isPtr = true := by
  simp only [pointer, seq_ok_iff, defined_ok_iff, ite_ok_iff']
  exact and_iff_right_of_imp Ty.ne_void_of_isPtr

theorem index_ok_iff {i : Ref} : d.index i = .ok () ↔
    (d.typeOf i).kind ≠ .invalid ∧ (d.typeOf i).kind ≠ .bool ∧ (d.typeOf i).kind ≠ .ptr := by
  simp only [index, seq_ok_iff, defined_ok_iff]
  have hv := @Ty.ne_void_of_kind (d.typeOf i)
  cases hk : (d.typeOf i).kind <;> simp_all

theorem checkBlock_ok_iff {b : BlockId} : checkBlock n b = .ok () ↔ 0 ≤ b ∧ b < n := by
  rw [checkBlock, ite_ok_iff']

/-- The check of an operation passes exactly if its operands have the types it needs. -/
theorem checkOperation_ok_iff {op : Operation} : d.checkOperation op = .ok () ↔ op.Fits d.typeOf := by
  cases op with
  | const t x => exact scalar_ok_iff
  | binary op t l r =>
    simp only [checkOperation, seq_ok_iff, scalar_ok_iff, Operation.Fits]
    refine and_congr_right fun ht => and_congr_right fun _ => ?_
    rw [d.operand_ok_iff (Ty.ne_void_of_kind ht), d.operand_ok_iff (Ty.ne_void_of_kind ht)]
  | unary op t x =>
    simp only [checkOperation, seq_ok_iff, scalar_ok_iff, Operation.Fits]
    refine and_congr_right fun ht => and_congr_right fun _ => ?_
    rw [d.operand_ok_iff (Ty.ne_void_of_kind ht)]
  | compare c t l r =>
    simp only [checkOperation, seq_ok_iff, scalar_ok_iff, Operation.Fits]
    refine and_congr_right fun ht => and_congr_right fun _ => ?_
    rw [d.operand_ok_iff (Ty.ne_void_of_kind ht), d.operand_ok_iff (Ty.ne_void_of_kind ht)]
  | convert target source x =>
    simp only [checkOperation, seq_ok_iff, scalar_ok_iff, Operation.Fits]
    refine and_congr_right fun _ => and_congr_right fun hs => ?_
    split
    · simp_all [bind, Except.bind]
    · rw [seq_ok_iff, d.operand_ok_iff (Ty.ne_void_of_kind hs)]
      simp [*]
  | ptrAdd t p i scale => simp only [checkOperation, seq_ok_iff, pointer_ok_iff, index_ok_iff, Operation.Fits]
  | ptrDiff p q scale => simp only [checkOperation, seq_ok_iff, pointer_ok_iff, Operation.Fits]
  | load t p => simp only [checkOperation, seq_ok_iff, pointer_ok_iff, scalar_ok_iff, Operation.Fits]

theorem checkStore_ok_iff : d.checkStore t p x = .ok () ↔
    (d.typeOf p).isPtr = true ∧ d.typeOf x = t ∧ t.kind ≠ .invalid := by
  simp only [checkStore, seq_ok_iff, pointer_ok_iff, scalar_ok_iff]
  refine and_congr_right fun _ => and_congr_left fun ht => ?_
  rw [d.operand_ok_iff (Ty.ne_void_of_kind ht)]

/-- The check of an exit passes exactly if it suits the function. -/
theorem checkExit_ok_iff {e : Exit} : d.checkExit n e = .ok () ↔ e.Fits d.sig.result n d.typeOf := by
  cases e with
  | jump t => exact checkBlock_ok_iff
  | branch c yes no =>
    simp only [checkExit, seq_ok_iff, checkBlock_ok_iff, Exit.Fits]
    rw [d.operand_ok_iff (t := .bool) (by simp)]
  | ret x =>
    cases x with
    | none => simp [checkExit, checkResult, Exit.Fits]
    | some x =>
      rw [checkExit, checkResult, Exit.Fits]
      split
      · rename_i h
        exact iff_of_false nofun fun h' => h'.1 (Ty.isVoid_iff.1 h)
      · rename_i h
        rw [Ty.isVoid_iff] at h
        rw [d.operand_ok_iff h]
        exact (and_iff_right h).symm

end Draft

/-! ## What both back ends know -/

/-- The draft is open, nothing failed, and it knows the signature and the types of all values. -/
structure Draft.Agrees (d : Draft) (b : Backend) (sig : Signature) (ty : Ref → Ty) : Prop where
  backend : d.backend = b
  error : d.error = none
  begun : d.begun = true
  finalized : d.finalized = false
  sig : d.sig = sig
  types : ∀ x, d.typeOf x = ty x

namespace Draft

variable {d : Draft} {b : Backend} {sig : Signature} {ty : Ref → Ty}

theorem ready_ok_iff : d.ready = .ok () ↔ d.error = none ∧ d.begun = true ∧ d.finalized = false := by
  unfold ready
  cases d.error <;> cases d.begun <;> cases d.finalized <;> simp

theorem Agrees.ready (h : d.Agrees b sig ty) : d.ready = .ok () :=
  ready_ok_iff.2 ⟨h.error, h.begun, h.finalized⟩

theorem error_fail (d : Draft) (block : String) (reason : Reason) : (d.fail block reason).error ≠ none := by
  unfold fail
  cases d.error <;> simp

theorem typeOf_setType (d : Draft) (id : Nat) (t : Ty) (x : Ref) :
    (d.setType id t).typeOf x = if x = (id : Int) then t else d.typeOf x := by
  cases x with
  | negSucc k =>
    rw [if_neg (by intro h; cases h)]
    rfl
  | ofNat k =>
    simp only [setType, typeOf, Int.ofNat_eq_natCast, fetch?_natCast, Int.natCast_inj]
    rw [Array.getElem?_setIfInBounds]
    by_cases hk : id = k
    · subst hk
      have hlt : id < (if d.types.size ≤ id then
          d.types ++ Array.replicate (id + 1 - d.types.size) Ty.void else d.types).size := by
        split
        · simp only [Array.size_append, Array.size_replicate]
          omega
        · omega
      rw [if_pos rfl, if_pos rfl, if_pos hlt]
      rfl
    · rw [if_neg hk, if_neg (Ne.symm hk)]
      split
      · rw [Array.getElem?_append]
        split
        · rfl
        · rename_i hlt
          rw [Array.getElem?_eq_none (by omega : d.types.size ≤ k), Array.getElem?_replicate]
          split <;> rfl
      · rfl

theorem Agrees.setType (h : d.Agrees b sig ty) (id : Nat) (t : Ty) :
    (d.setType id t).Agrees b sig (Function.update ty id t) where
  backend := h.backend
  error := h.error
  begun := h.begun
  finalized := h.finalized
  sig := h.sig
  types x := by
    rw [typeOf_setType, Function.update_apply]
    split
    · rfl
    · exact h.types x

theorem Agrees.checkOperation (h : d.Agrees b sig ty) {op : Operation} :
    d.checkOperation op = .ok () ↔ op.Fits ty := by
  rw [d.checkOperation_ok_iff, funext h.types]

theorem Agrees.checkStore (h : d.Agrees b sig ty) {t : Ty} {p x : Ref} : d.checkStore t p x = .ok () ↔
    (ty p).isPtr = true ∧ ty x = t ∧ t.kind ≠ .invalid := by
  rw [d.checkStore_ok_iff, h.types, h.types]

theorem Agrees.checkExit (h : d.Agrees b sig ty) {n : Nat} {e : Exit} :
    d.checkExit n e = .ok () ↔ e.Fits sig.result n ty := by
  rw [d.checkExit_ok_iff, funext h.types, h.sig]

end Draft

end Gen

end Codesmith
