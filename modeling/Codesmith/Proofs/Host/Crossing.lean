import Codesmith.Proofs.Describe.Constants

/-!
# Values on their way into a function and back

A value of the host program is passed as a word and the result comes back as a value. Where the type of the
value represents the type of the parameter, nothing is lost on the way. Other integers are reduced into the
range of the parameter, and a value is refused exactly if it is of another class than the parameter.
-/

namespace Codesmith

/-- What values are taken for where they are passed. -/
inductive Class
  | truth
  | integer
  | address
  deriving DecidableEq, Repr

/-- The class of the values of a type, if it has one. -/
def Ty.class? : Ty → Option Class
  | bool => some .truth
  | int _ _ => some .integer
  | ptr _ => some .address
  | _ => none

namespace Host

def HostType.integer? : HostType → Option (Width × Bool)
  | int width signed => some (width.getD .w64, signed)
  | address => some (.w64, false)
  | _ => none

def HostValue.class? : HostValue → Option Class
  | bool _ => some .truth
  | int _ _ => some .integer
  | nothing | pointer _ _ | slice _ _ _ => some .address
  | _ => none

/-- The values of each type of the host program. -/
inductive HostValue.OfType : HostValue → HostType → Prop
  | bool (b : Bool) : OfType (.bool b) .bool
  | text (s : String) : OfType (.text s) .text
  | int {g : HostType} {w : Width} {s : Bool} {n : Int} : g.integer? = some (w, s) → w.Range s n → OfType (.int g n) g
  | float (w : Width) (x : Binary) : OfType (.float w x) (.float w)
  | pointer (elem : HostType) (a : UInt64) : OfType (.pointer (.pointer elem) a) (.pointer elem)
  | anyPointer (a : UInt64) : OfType (.pointer .anyPointer a) .anyPointer
  | slice (elem : HostType) (a : UInt64) (n : Nat) : OfType (.slice elem a n) (.slice elem)
  | array (n : Nat) (elem : HostType) : OfType (.array n elem) (.array n elem)
  | other (name : String) (size : Nat) (text : String) : OfType (.other name size text) (.other name size)

variable {g : HostType} {w : Width} {s : Bool} {n : Int} {bits : Int} {t : Ty} {v : HostValue}

/-- The bits of a word are read in a type as the integer that they denote. -/
theorem HostValue.intOfBits_eq (h : g.integer? = some (w, s)) (x : UInt64) :
    intOfBits g x = (Word.ofBits ((Kind.int w s).norm x)).value s := by
  cases g with
  | int width signed =>
    cases h
    cases width with
    | none => cases s <;> simp [intOfBits, Word.value, Word.ofBits, Kind.norm_w64]
    | some width => cases s <;> simp [intOfBits, Word.value, Word.ofBits]
  | address =>
    cases h
    simp [intOfBits, Word.value, Word.ofBits, Kind.norm_w64]
  | _ => cases h

/-- An integer type represents the type of the same width and sign. -/
theorem HostType.integer?_of_represents (h : g.represents (.int bits s) = .ok true) :
    ∃ w, g.integer? = some (w, s) ∧ bits = w.bits := by
  simp only [represents, Except.ok.injEq, Bool.and_eq_true, beq_iff_eq] at h
  obtain ⟨rfl, hsign⟩ := h
  cases g with
  | int width signed =>
    refine ⟨width.getD .w64, ?_, ?_⟩
    · cases signed <;> cases s <;> simp_all [isSigned, isUnsigned, integer?]
    · rcases width with _ | _ | _ | _ | _ <;> rfl
  | address =>
    cases s
    · exact ⟨.w64, rfl, rfl⟩
    · simp [isSigned, isUnsigned] at hsign
  | _ => simp [isSigned, isUnsigned] at hsign

theorem HostValue.toWord_int (g : HostType) (w : Width) (s : Bool) (n : Int) :
    (HostValue.int g n).toWord (.int w.bits s) = .ok (Word.ofBits ((Kind.int w s).norm (UInt64.ofInt n))) := by
  simp [toWord, Ty.kind_int]

theorem HostValue.OfType.ne_nothing (h : v.OfType g) : v ≠ .nothing := by
  rintro rfl
  cases h

/-- A value of a type that represents the type of a parameter becomes a word that stands for it. -/
theorem HostValue.OfType.toWord (hv : v.OfType g) (h : g.represents t = .ok true) :
    ∃ x, v.toWord t = .ok x ∧ (g.isSlice = false → g.ofWord x = v) := by
  cases t with
  | bool =>
    cases hv with
    | bool b => exact ⟨Word.ofBool b, rfl, fun _ => by cases b <;> rfl⟩
    | int hg => cases g <;> first | (cases hg; done) | cases h
    | _ => cases h
  | int bits s =>
    obtain ⟨w, hg, rfl⟩ := HostType.integer?_of_represents h
    cases hv with
    | @int _ w' s' n hg' hn =>
      obtain ⟨rfl, rfl⟩ := Prod.mk.inj (Option.some.inj (hg.symm.trans hg'))
      refine ⟨_, toWord_int g w s n, fun _ => ?_⟩
      have hback : intOfBits g ((Kind.int w s).norm (UInt64.ofInt n)) = n := by
        rw [intOfBits_eq hg, Kind.norm_norm, Word.value_norm, Width.wrap_of_range hn]
      cases g <;> first | exact congrArg _ hback | cases hg
    | _ => cases hg
  | ptr elem =>
    have haddr : ∀ a, (Word.ofAddress a).addr = a := by
      intro a
      simp only [Word.addr, Word.ofAddress, UInt64.add_zero]
      split
      · exact (‹a = 0›).symm
      · rfl
    cases hv with
    | pointer e a => exact ⟨Word.ofAddress a, rfl, fun _ => congrArg _ (haddr a)⟩
    | anyPointer a => exact ⟨Word.ofAddress a, rfl, fun _ => congrArg _ (haddr a)⟩
    | slice e a n => exact ⟨Word.ofAddress a, rfl, nofun⟩
    | int hg => cases g <;> first | (cases hg; done) | (cases elem <;> cases h)
    | _ => cases elem <;> cases h
  | _ => cases g <;> cases h

/-- A value is refused exactly if its class is not that of the parameter. -/
theorem HostValue.toWord_error_iff (ht : t.isScalar = true) (v : HostValue) :
    (∃ e, v.toWord t = .error e) ↔ v.class? ≠ t.class? := by
  cases t with
  | bool => cases v <;> simp [HostValue.toWord, Ty.kind, HostValue.class?, Ty.class?]
  | ptr elem => cases v <;> simp [HostValue.toWord, Ty.kind, HostValue.class?, Ty.class?]
  | int bits s =>
    obtain ⟨w, hw⟩ := Option.isSome_iff_exists.1 ht
    cases v <;> simp [HostValue.toWord, Ty.kind, hw, HostValue.class?, Ty.class?]
  | _ => cases ht

/-- Values cross the call boundary unchanged. If a host type represents the type of a parameter, each of its values
becomes a word, the one that a bound function passes, and unless it is a slice it can be read back from there. An
integer of any host type becomes a normal word of the integer type of a parameter; read back, it is the integer of
that type which agrees with it modulo a power of two, and itself if it is in the range. A value is refused exactly
if its class is not that of the parameter. -/
theorem values_cross_unchanged (t : Ty) (ht : t.isScalar = true) :
    (∀ g v, g.represents t = .ok true → HostValue.OfType v g →
      ∃ x, v.toWord t = .ok x ∧ Bound.word t g v = x ∧ (g.isSlice = false → g.ofWord x = v)) ∧
    (∀ bits s, t = .int bits s → ∃ w : Width, bits = w.bits ∧ ∀ g n, HostValue.OfType (.int g n) g →
      ∃ x k, (HostValue.int g n).toWord t = .ok x ∧ x.Normal (.int w s) ∧
        HostValue.ofWord t x = .int (.int (some w) s) k ∧ HostValue.OfType (.int (.int (some w) s) k) (.int (some w) s) ∧
        k ≡ n [ZMOD 2 ^ w.bits] ∧ (w.Range s n → k = n)) ∧
    ∀ v : HostValue, (∃ e, v.toWord t = .error e) ↔ v.class? ≠ t.class? := by
  refine ⟨fun g v h hv => ?_, fun bits s heq => ?_, HostValue.toWord_error_iff ht⟩
  · obtain ⟨x, hx, hback⟩ := hv.toWord h
    refine ⟨x, hx, ?_, hback⟩
    simp [Bound.word, hv.ne_nothing, hx, Except.toOption]
  · subst heq
    obtain ⟨w, hw⟩ := Option.isSome_iff_exists.1 ht
    obtain rfl : bits = w.bits := by
      unfold Width.ofBits? at hw
      split at hw <;> cases hw <;> rfl
    refine ⟨w, rfl, fun g n _ => ⟨_, w.wrap s n, HostValue.toWord_int g w s n, Word.normal_norm _ _, ?_,
      .int rfl (w.range_wrap s n), w.wrap_emod s n, Width.wrap_of_range⟩⟩
    have hback := HostValue.intOfBits_eq (g := .int (some w) s) (w := w) rfl ((Kind.int w s).norm (UInt64.ofInt n))
    rw [Kind.norm_norm, Word.value_norm] at hback
    rw [HostValue.ofWord, Ty.kind_int]
    exact congrArg _ hback

/-- A negative byte passes a parameter of its own type, is reduced by an unsigned one, and no truth value. -/
theorem values_cross_unchanged_byte :
    (∃ x, (HostValue.int (.int (some .w8) true) (-3)).toWord (.int 8 true) = .ok x ∧
      (HostType.int (some .w8) true).ofWord x = .int (.int (some .w8) true) (-3)) ∧
    (∃ x, (HostValue.int (.int (some .w8) true) (-3)).toWord (.int 16 false) = .ok x ∧
      HostValue.ofWord (.int 16 false) x = .int (.int (some .w16) false) 65533) ∧
    ∃ e, (HostValue.int (.int (some .w8) true) (-3)).toWord .bool = .error e := by
  have hbyte : HostValue.OfType (.int (.int (some .w8) true) (-3)) (.int (some .w8) true) :=
    .int rfl (by show (-2 ^ 7 : Int) ≤ -3 ∧ (-3 : Int) < 2 ^ 7; decide)
  refine ⟨?_, ?_, ((values_cross_unchanged .bool rfl).2.2 _).2 (by decide)⟩
  · obtain ⟨x, hx, -, hback⟩ := (values_cross_unchanged (.int 8 true) rfl).1 _ _ rfl hbyte
    exact ⟨x, hx, hback rfl⟩
  · obtain ⟨w, hw, hcross⟩ := (values_cross_unchanged (.int 16 false) rfl).2.1 16 false rfl
    obtain rfl : w = .w16 := by cases w <;> cases hw; rfl
    obtain ⟨x, k, hx, -, hk, -⟩ := hcross _ _ hbyte
    refine ⟨x, hx, ?_⟩
    cases hx
    rfl

end Host

end Codesmith
