import Codesmith.Proofs.Except
import Codesmith.Code.Call

/-!
# Normal words

A word of an integer kind or of truth values is normal if it has no base and its bits are those that
count, extended to 64 bits. Every operation on normal words yields a word that is normal for the kind of
its result. A normal word can be given to the host program and taken back without loss.
-/

namespace Codesmith

namespace Kind

theorem norm_zero (k : Kind) : k.norm 0 = 0 := by
  unfold norm
  split <;> rfl

/-- The low bits of a sign extension are those that were extended. -/
theorem toUInt8_toInt64 (y : Int8) : y.toInt64.toUInt64.toUInt8 = y.toUInt8 := by
  apply UInt8.toBitVec_inj.1
  simp
  grind

theorem toUInt16_toInt64 (y : Int16) : y.toInt64.toUInt64.toUInt16 = y.toUInt16 := by
  apply UInt16.toBitVec_inj.1
  simp
  grind

theorem toUInt32_toInt64 (y : Int32) : y.toInt64.toUInt64.toUInt32 = y.toUInt32 := by
  apply UInt32.toBitVec_inj.1
  simp
  grind

@[simp] theorem norm_norm (k : Kind) (x : UInt64) : k.norm (k.norm x) = k.norm x := by
  cases k with
  | bool => simp [norm, UInt64.and_assoc]
  | int w s =>
    cases s with
    | true => cases w <;> simp [norm, toUInt8_toInt64, toUInt16_toInt64, toUInt32_toInt64]
    | false => cases w <;> simp only [norm, UInt8.toUInt8_toUInt64, UInt16.toUInt16_toUInt64,
        UInt32.toUInt32_toUInt64]
  | _ => rfl

theorem norm_w64 (s : Bool) (x : UInt64) : (int .w64 s).norm x = x := by
  cases s <;> rfl

/-- The bits of a truth value are zero or one. -/
theorem eq_of_norm_bool {x : UInt64} (h : bool.norm x = x) : x = 0 ∨ x = 1 := by
  have hx : x.toNat % 2 = x.toNat := by simpa [norm] using congrArg UInt64.toNat h
  have hlt := Nat.mod_lt x.toNat Nat.zero_lt_two
  rw [hx] at hlt
  interval_cases hn : x.toNat
  · exact .inl (UInt64.toNat_inj.1 hn)
  · exact .inr (UInt64.toNat_inj.1 hn)

end Kind

namespace Word

variable {op : Op}

/-- A word of an integer kind or of truth values has no base and the bits that count. -/
def Normal (k : Kind) (w : Word) : Prop :=
  k.isInt = true ∨ k = .bool → w.base = 0 ∧ k.norm w.bits = w.bits

theorem normal_zero (k : Kind) : zero.Normal k :=
  fun _ => ⟨rfl, k.norm_zero⟩

theorem normal_norm (k : Kind) (x : UInt64) : (ofBits (k.norm x)).Normal k :=
  fun _ => ⟨rfl, k.norm_norm x⟩

theorem normal_ofBool (b : Bool) : (ofBool b).Normal .bool := by
  intro _
  cases b <;> exact ⟨rfl, rfl⟩

theorem normal_ptr (w : Word) : w.Normal .ptr := by
  rintro (h | h) <;> cases h

theorem normal_invalid (w : Word) : w.Normal .invalid := by
  rintro (h | h) <;> cases h

/-! ## Operations -/

variable {k target source : Kind} {l r x w : Word}

theorem normal_binary (h : binary op k l r = .ok w) : w.Normal k := by
  unfold binary at h
  cases hz : binaryBits op k l.bits r.bits with
  | error e => rw [hz] at h; cases h
  | ok z =>
    rw [hz] at h
    cases h
    exact normal_norm k z

/-- The negation of a truth value is not normalized, but it is normal if the truth value was. -/
theorem normal_unary (hx : x.Normal k) (h : unary op k x = .ok w) : w.Normal k := by
  unfold unary at h
  split at h
  · cases h
    exact normal_norm k _
  · cases h
    split
    · rename_i hk
      subst hk
      intro _
      refine ⟨rfl, ?_⟩
      rcases Kind.eq_of_norm_bool (hx (.inr rfl)).2 with hb | hb <;> rw [hb] <;> rfl
    · exact normal_norm k _
  · cases h

theorem normal_convert (hx : x.Normal source) (h : convert target source x = .ok w) : w.Normal target := by
  unfold convert at h
  split at h
  · rename_i hk
    cases h
    exact hk ▸ hx
  split at h
  · split at h
    · rename_i hk
      cases h
      exact hk ▸ normal_ofBool _
    · cases h
      exact normal_norm target _
  · split at h
    · cases h
    · split at h
      · rename_i hk
        cases h
        exact hk ▸ normal_ofBool _
      · cases h
        exact normal_norm target _

theorem normal_ptrDiff (l r : Word) (scale : Int) : (ptrDiff l r scale).Normal (.int .w64 true) :=
  fun _ => ⟨rfl, Kind.norm_w64 true _⟩

theorem normal_load {m : Memory} {p : Word} (h : m.load k p = .ok w) : w.Normal k := by
  unfold Memory.load at h
  split at h
  · cases h
  · cases h
  · split at h
    · cases h
    · split at h
      · rename_i hk
        exact hk ▸ normal_ptr w
      · cases h
        exact normal_norm k _

end Word

/-! ## Host values -/

namespace Host.HostValue

variable {w : Word} {t : Ty}

theorem ofInt_toInt64 (x : UInt64) : UInt64.ofInt x.toInt64.toInt = x := by
  have h : (x.toBitVec.toInt % 2 ^ 64).toNat = x.toNat := by
    have hcast := congrArg BitVec.toNat (BitVec.ofInt_toInt (x := x.toBitVec))
    rwa [BitVec.toNat_ofInt] at hcast
  exact (congrArg UInt64.ofNat h).trans UInt64.ofNat_toNat

theorem ofInt_toNat (x : UInt64) : UInt64.ofInt (x.toNat : Int) = x := by
  have h : ((x.toNat : Int) % 2 ^ 64).toNat = x.toNat := by
    have := x.toNat_lt
    omega
  exact (congrArg UInt64.ofNat h).trans UInt64.ofNat_toNat

theorem ofInt_intOfBits {w : Width} {s : Bool} {x : UInt64} (h : (Kind.int w s).norm x = x) :
    UInt64.ofInt (intOfBits (.int (some w) s) x) = x := by
  cases s with
  | false =>
    simp only [intOfBits, Bool.false_eq_true, if_false, h]
    exact ofInt_toNat x
  | true =>
    simp only [intOfBits, if_true, h]
    exact ofInt_toInt64 x

theorem normal_toWord {v : HostValue} (h : v.toWord t = .ok w) : w.Normal t.kind := by
  cases hk : t.kind with
  | invalid => exact Word.normal_invalid w
  | unknown => rintro (h | h) <;> cases h
  | ptr => exact Word.normal_ptr w
  | bool =>
    cases v <;> simp only [toWord, hk] at h <;> cases h
    exact Word.normal_ofBool _
  | int width signed =>
    cases v <;> simp only [toWord, hk] at h <;> cases h
    exact Word.normal_norm _ _

/-- The host value of a normal word stands for the same word. -/
theorem toWord_ofWord (ht : t.kind.isInt = true ∨ t.kind = .bool) (h : w.Normal t.kind) :
    (ofWord t w).toWord t = .ok w := by
  obtain ⟨hbase, hbits⟩ := h ht
  obtain ⟨base, bits⟩ := w
  obtain rfl : base = 0 := hbase
  cases hk : t.kind with
  | bool =>
    rw [hk] at hbits
    rcases Kind.eq_of_norm_bool hbits with hb | hb <;>
      · simp only at hb
        simp [ofWord, toWord, hk, hb, Word.ofBool]
  | int width s =>
    rw [hk] at hbits
    simp only [ofWord, toWord, hk, ofInt_intOfBits hbits]
    rw [hbits]
    rfl
  | invalid => rw [hk] at ht; simp [Kind.isInt] at ht
  | ptr => rw [hk] at ht; simp [Kind.isInt] at ht
  | unknown code => rw [hk] at ht; simp [Kind.isInt] at ht

end Host.HostValue

end Codesmith
