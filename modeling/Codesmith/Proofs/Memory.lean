import Mathlib
import Codesmith.Memory

/-!
# Loads and stores

A value takes consecutive bytes, least byte first. What is stored is read back in every kind of the same size,
cut to the bits that count there. Bytes outside the value keep what they held, so loads of other values see no
change, and stores of values that share no byte may be exchanged. Addresses wrap around, but no value is so long
that its bytes meet.
-/

namespace Codesmith

variable {bs : List UInt8}

/-! ## Bytes of numbers -/

theorem length_toBytes (n : Nat) (x : UInt64) : (toBytes n x).length = n := by
  induction n generalizing x with
  | zero => rfl
  | succ n ih => rw [toBytes, List.length_cons, ih]

/-- Bytes hold the low bits of a number. -/
theorem toNat_ofBytes_toBytes {n : Nat} (hn : n ≤ 8) (x : UInt64) :
    (ofBytes (toBytes n x)).toNat = x.toNat % 2 ^ (8 * n) := by
  induction n generalizing x with
  | zero => simp [toBytes, ofBytes, Nat.mod_one]
  | succ n ih =>
    have hlow : x.toUInt8.toUInt64.toNat = x.toNat % 2 ^ 8 := by simp
    have hshift : (x >>> 8).toNat = x.toNat / 2 ^ 8 := by
      simp [UInt64.toNat_shiftRight, Nat.shiftRight_eq_div_pow]
    have hrest : (ofBytes (toBytes n (x >>> 8))).toNat = x.toNat / 2 ^ 8 % 2 ^ (8 * n) := by
      rw [ih (by omega), hshift]
    have hsmall : x.toNat / 2 ^ 8 % 2 ^ (8 * n) < 2 ^ 56 :=
      (Nat.mod_lt _ (by positivity)).trans_le (Nat.pow_le_pow_right (by decide) (by omega))
    have hmove : (ofBytes (toBytes n (x >>> 8)) <<< 8).toNat = 2 ^ 8 * (x.toNat / 2 ^ 8 % 2 ^ (8 * n)) := by
      rw [UInt64.toNat_shiftLeft, hrest, Nat.shiftLeft_eq, Nat.mul_comm, show UInt64.toNat 8 % 64 = 8 from rfl]
      exact Nat.mod_eq_of_lt (by omega)
    rw [toBytes, ofBytes, UInt64.toNat_or, hlow, hmove, Nat.or_comm,
      ← Nat.two_pow_add_eq_or_of_lt (Nat.mod_lt _ (by decide)), Nat.mul_add, Nat.pow_add, Nat.mul_one,
      Nat.mul_comm (2 ^ (8 * n)), Nat.mod_mul, Nat.add_comm]

namespace Kind

/-- Truth values and integers. -/
def Number (k : Kind) : Prop :=
  k = .bool ∨ k.isInt = true

theorem size_int (w : Width) (s : Bool) : (int w s).size = w.bits / 8 := rfl

theorem size_le (k : Kind) : k.size ≤ 8 := by
  cases k with
  | int w s =>
    rw [size_int]
    cases w <;> decide
  | unknown code => simp [size, bits]
  | _ => decide

/-- Only the bits that a value takes in memory count. -/
theorem norm_congr {k : Kind} (hk : k.Number) {x y : UInt64}
    (h : x.toNat % 2 ^ (8 * k.size) = y.toNat % 2 ^ (8 * k.size)) : k.norm x = k.norm y := by
  cases k with
  | bool =>
    refine UInt64.toNat_inj.1 ?_
    have h : x.toNat % 256 = y.toNat % 256 := h
    simp only [norm, UInt64.toNat_and, UInt64.toNat_one, Nat.and_one_is_mod]
    omega
  | int w s =>
    rw [size_int] at h
    cases w with
    | w8 =>
      have hlow : x.toUInt8 = y.toUInt8 := UInt8.toNat_inj.1 h
      cases s <;> simp only [norm, hlow]
    | w16 =>
      have hlow : x.toUInt16 = y.toUInt16 := UInt16.toNat_inj.1 h
      cases s <;> simp only [norm, hlow]
    | w32 =>
      have hlow : x.toUInt32 = y.toUInt32 := UInt32.toNat_inj.1 h
      cases s <;> simp only [norm, hlow]
    | w64 =>
      have hx : x.toNat % 2 ^ 64 = y.toNat % 2 ^ 64 := h
      rw [Nat.mod_eq_of_lt x.toNat_lt, Nat.mod_eq_of_lt y.toNat_lt] at hx
      rw [UInt64.toNat_inj.1 hx]
  | _ => rcases hk with hk | hk <;> cases hk

end Kind

namespace Memory

variable {m : Memory} {a b : UInt64} {n k : Nat}

/-! ## One byte -/

theorem locate_inj {p : Nat × Nat} (ha : locate a = some p) (hb : locate b = some p) : a = b := by
  have hsplit : ∀ c : UInt64, locate c = some p → c.toNat = 2 ^ 40 * (p.1 + 1) + p.2 := by
    intro c hc
    rw [locate] at hc
    split at hc
    · cases hc
    rename_i i hi
    cases hc
    have hhigh : c.toNat / 2 ^ 40 = i + 1 := by
      simpa [UInt64.toNat_shiftRight, Nat.shiftRight_eq_div_pow] using hi
    have hlow : (c &&& 0xffffffffff).toNat = c.toNat % 2 ^ 40 := by
      rw [UInt64.toNat_and]
      exact Nat.and_two_pow_sub_one_eq_mod _ 40
    rw [hlow, ← hhigh, Nat.div_add_mod]
  exact UInt64.toNat_inj.1 ((hsplit a ha).trans (hsplit b hb).symm)

theorem byte?_setByte (m : Memory) (a b : UInt64) (x : UInt8) :
    (m.setByte a x).byte? b = if b = a then (m.byte? b).map fun _ => x else m.byte? b := by
  rw [setByte, byte?, byte?]
  cases ha : locate a with
  | none =>
    by_cases h : b = a
    · simp [h, ha]
    · simp [h]
  | some p =>
    cases hb : locate b with
    | none => simp
    | some q =>
      by_cases h : b = a
      · subst h
        cases ha.symm.trans hb
        cases hbuf : m.buffers[p.1]? with
        | none => simp [Array.getElem?_modify, hbuf]
        | some buf => by_cases ho : p.2 < buf.size <;> simp [Array.getElem?_modify, hbuf, ho]
      · have hne : p ≠ q := fun hpq => h (locate_inj hb (hpq ▸ ha))
        simp only [if_neg h]
        rw [Array.getElem?_modify]
        by_cases hi : p.1 = q.1
        · have ho : p.2 ≠ q.2 := fun ho => hne (Prod.ext hi ho)
          cases m.buffers[q.1]? with
          | none => simp [hi]
          | some buf => simp [hi, ho]
        · rw [if_neg hi]

@[simp] theorem isSome_byte?_setByte (m : Memory) (a b : UInt64) (x : UInt8) :
    ((m.setByte a x).byte? b).isSome = (m.byte? b).isSome := by
  rw [byte?_setByte]
  split
  · exact Option.isSome_map
  · rfl

theorem setByte_comm (m : Memory) {a b : UInt64} (hab : a ≠ b) (x y : UInt8) :
    (m.setByte a x).setByte b y = (m.setByte b y).setByte a x := by
  cases ha : locate a with
  | none => simp [setByte, ha]
  | some p =>
    cases hb : locate b with
    | none => simp [setByte, hb]
    | some q =>
      have hne : p ≠ q := fun hpq => hab (locate_inj ha (hpq ▸ hb))
      simp only [setByte, ha, hb, mk.injEq]
      refine Array.ext_getElem? fun i => ?_
      simp only [Array.getElem?_modify]
      by_cases hp : p.1 = i
      · by_cases hq : q.1 = i
        · have ho : p.2 ≠ q.2 := fun ho => hne (Prod.ext (hp.trans hq.symm) ho)
          cases m.buffers[i]? with
          | none => simp
          | some buf => simp [hp, hq, Array.setIfInBounds_comm _ _ ho]
        · simp [hq]
      · simp [hp]

/-! ## The bytes of a value -/

/-- The addresses of so many bytes from an address on. -/
def addresses (a : UInt64) : Nat → List UInt64
  | 0 => []
  | n + 1 => a :: addresses (a + 1) n

/-- So many bytes from an address on lie in buffers. -/
def InBounds (m : Memory) (a : UInt64) (n : Nat) : Prop :=
  ∀ b ∈ addresses a n, (m.byte? b).isSome = true

instance (m : Memory) (a : UInt64) (n : Nat) : Decidable (m.InBounds a n) :=
  decidable_of_iff ((addresses a n).all fun b => (m.byte? b).isSome) List.all_eq_true

/-- Bytes from one address on and bytes from another on have no byte in common. -/
def Apart (a : UInt64) (n : Nat) (b : UInt64) (k : Nat) : Prop :=
  ∀ c ∈ addresses a n, c ∉ addresses b k

instance (a : UInt64) (n : Nat) (b : UInt64) (k : Nat) : Decidable (Apart a n b k) :=
  decidable_of_iff ((addresses a n).all fun c => c ∉ addresses b k) (by simp [Apart])

theorem addresses_add (h : b ∈ addresses a n) : ∃ i < n, b = a + UInt64.ofNat i := by
  induction n generalizing a with
  | zero => cases h
  | succ n ih =>
    rcases List.mem_cons.1 h with rfl | h
    · exact ⟨0, n.succ_pos, by simp⟩
    · obtain ⟨i, hi, rfl⟩ := ih h
      refine ⟨i + 1, Nat.succ_lt_succ hi, ?_⟩
      rw [UInt64.ofNat_add, UInt64.add_assoc, UInt64.add_comm 1]
      rfl

theorem not_mem_addresses_succ (hn : n ≤ 8) : a ∉ addresses (a + 1) n := by
  intro h
  obtain ⟨i, hi, he⟩ := addresses_add h
  have hnat := congrArg UInt64.toNat he
  have hlt := a.toNat_lt
  simp only [UInt64.toNat_add, UInt64.toNat_one, UInt64.toNat_ofNat'] at hnat
  omega

theorem bytes?_isSome_iff (m : Memory) (a : UInt64) (n : Nat) :
    (m.bytes? a n).isSome = true ↔ m.InBounds a n := by
  induction n generalizing a with
  | zero => simp [bytes?, InBounds, addresses]
  | succ n ih =>
    have ih := ih (a + 1)
    rw [InBounds, addresses, List.forall_mem_cons, ← InBounds, ← ih, bytes?]
    cases m.byte? a <;> cases m.bytes? (a + 1) n <;> simp

theorem bytes?_congr {m' : Memory} (h : ∀ b ∈ addresses a n, m'.byte? b = m.byte? b) :
    m'.bytes? a n = m.bytes? a n := by
  induction n generalizing a with
  | zero => rfl
  | succ n ih =>
    rw [addresses, List.forall_mem_cons] at h
    rw [bytes?, bytes?, h.1, ih h.2]

theorem byte?_setBytes (hb : b ∉ addresses a bs.length) :
    (m.setBytes a bs).byte? b = m.byte? b := by
  induction bs generalizing m a with
  | nil => rfl
  | cons x bs ih =>
    rw [List.length_cons, addresses, List.mem_cons, not_or] at hb
    rw [setBytes, ih hb.2, byte?_setByte, if_neg hb.1]

theorem inBounds_setByte {x : UInt8} : (m.setByte b x).InBounds a n ↔ m.InBounds a n := by
  simp [InBounds]

theorem inBounds_setBytes : (m.setBytes b bs).InBounds a n ↔ m.InBounds a n := by
  induction bs generalizing m b with
  | nil => rfl
  | cons x bs ih => rw [setBytes, ih, inBounds_setByte]

/-- Bytes that were written are read back. -/
theorem bytes?_setBytes (hlen : bs.length ≤ 8) (h : m.InBounds a bs.length) :
    (m.setBytes a bs).bytes? a bs.length = some bs := by
  induction bs generalizing m a with
  | nil => rfl
  | cons x bs ih =>
    rw [List.length_cons] at hlen
    rw [InBounds, List.length_cons, addresses, List.forall_mem_cons] at h
    obtain ⟨y, hy⟩ := Option.isSome_iff_exists.1 h.1
    have hfirst : ((m.setByte a x).setBytes (a + 1) bs).byte? a = some x := by
      rw [byte?_setBytes (not_mem_addresses_succ (by omega)), byte?_setByte, if_pos rfl, hy]
      rfl
    rw [setBytes, List.length_cons, bytes?, hfirst, ih (by omega) (inBounds_setByte.2 h.2)]

theorem setByte_setBytes (hb : b ∉ addresses a bs.length) (y : UInt8) :
    (m.setByte b y).setBytes a bs = (m.setBytes a bs).setByte b y := by
  induction bs generalizing m a with
  | nil => rfl
  | cons x bs ih =>
    rw [List.length_cons, addresses, List.mem_cons, not_or] at hb
    rw [setBytes, setByte_comm _ hb.1, ih hb.2, setBytes]

theorem setBytes_comm {cs : List UInt8} (h : Apart a bs.length b cs.length) :
    (m.setBytes a bs).setBytes b cs = (m.setBytes b cs).setBytes a bs := by
  induction bs generalizing m a with
  | nil => rfl
  | cons x bs ih =>
    rw [Apart, List.length_cons, addresses, List.forall_mem_cons] at h
    rw [setBytes, ih h.2, setByte_setBytes h.1, setBytes]

/-! ## Values -/

variable {κ κ' : Kind} {p q x y : Word}

theorem Apart.symm (h : Apart a n b k) : Apart b k a n :=
  fun c hc hc' => h c hc' hc

theorem store_eq (hκ : κ.Number ∨ κ = .ptr) (hp : m.InBounds p.addr κ.size) (x : Word) :
    m.store κ p x = .ok (m.put κ p x) := by
  have hbytes := (m.bytes?_isSome_iff p.addr κ.size).2 hp
  have hfault : m.storeFault? κ p = none := by
    rcases hκ with (rfl | hκ) | rfl
    · exact if_pos hbytes
    · cases κ with
      | int w s => exact if_pos hbytes
      | _ => cases hκ
    · exact if_pos hbytes
  rw [store, hfault]

theorem load_eq (hκ : κ.Number) (hbs : m.bytes? p.addr κ.size = some bs) :
    m.load κ p = .ok (.ofBits (κ.norm (ofBytes bs))) := by
  rcases hκ with rfl | hκ
  · simp [load, hbs]
  · cases κ with
    | int w s => simp [load, hbs]
    | _ => cases hκ

theorem put_eq (hκ : κ.Number) : m.put κ p x = m.setBytes p.addr (toBytes κ.size x.bits) := by
  rw [put, if_neg]
  rintro rfl
  simp [Kind.Number, Kind.isInt] at hκ

theorem bytes?_toBytes (hp : m.InBounds a κ.size) (z : UInt64) :
    (m.setBytes a (toBytes κ.size z)).bytes? a κ.size = some (toBytes κ.size z) := by
  have hlen := length_toBytes κ.size z
  have hback := bytes?_setBytes (hlen.symm ▸ κ.size_le) (hlen.symm ▸ hp)
  rwa [hlen] at hback

/-- A value is read back in every kind of its size. -/
theorem load_put (hκ : κ.Number) (hp : m.InBounds p.addr κ.size) (hκ' : κ'.Number) (hsize : κ'.size = κ.size) :
    (m.put κ p x).load κ' p = .ok (.ofBits (κ'.norm x.bits)) := by
  rw [← hsize] at hp
  rw [put_eq hκ, ← hsize, load_eq hκ' (bytes?_toBytes hp x.bits), Kind.norm_congr hκ' (y := x.bits)]
  rw [toNat_ofBytes_toBytes κ'.size_le, Nat.mod_mod]

theorem load_put_ptr (hp : m.InBounds p.addr Kind.ptr.size) :
    (m.put .ptr p x).load .ptr p = .ok (.ofAddress x.addr) := by
  have hnat := toNat_ofBytes_toBytes Kind.ptr.size_le x.addr
  have haddr : ofBytes (toBytes Kind.ptr.size x.addr) = x.addr := by
    rw [show 8 * Kind.ptr.size = 64 from rfl, Nat.mod_eq_of_lt x.addr.toNat_lt] at hnat
    exact UInt64.toNat_inj.1 hnat
  simp only [load, put, if_true, bytes?_toBytes hp, haddr]

theorem load_put_of_apart (hκ : κ.Number) (hκ' : κ'.Number) (hq : m.InBounds q.addr κ'.size)
    (h : Apart p.addr κ.size q.addr κ'.size) :
    ∃ w, m.load κ' q = .ok w ∧ (m.put κ p x).load κ' q = .ok w := by
  obtain ⟨bs, hbs⟩ := Option.isSome_iff_exists.1 ((m.bytes?_isSome_iff q.addr κ'.size).2 hq)
  refine ⟨_, load_eq hκ' hbs, load_eq hκ' ((bytes?_congr fun b hb => ?_).trans hbs)⟩
  rw [put_eq hκ, byte?_setBytes]
  rw [length_toBytes]
  exact h.symm b hb

theorem put_put (hκ : κ.Number) (hκ' : κ'.Number) (h : Apart p.addr κ.size q.addr κ'.size) :
    (m.put κ p x).put κ' q y = (m.put κ' q y).put κ p x := by
  simp only [put_eq hκ, put_eq hκ']
  exact setBytes_comm (by rwa [length_toBytes, length_toBytes])

/-- Loads and stores of truth values and integers obey the laws of a memory of bytes, and pointers are read back
as the addresses they point to. -/
theorem load_store_laws (m : Memory) :
    (∀ κ p x, κ.Number → m.InBounds p.addr κ.size → ∃ m', m.store κ p x = .ok m' ∧
      (∀ κ', κ'.Number → κ'.size = κ.size → m'.load κ' p = .ok (.ofBits (κ'.norm x.bits))) ∧
      (∀ κ' q, κ'.Number → m.InBounds q.addr κ'.size → Apart p.addr κ.size q.addr κ'.size →
        ∃ w, m.load κ' q = .ok w ∧ m'.load κ' q = .ok w) ∧
      (∀ b, b ∉ addresses p.addr κ.size → m'.byte? b = m.byte? b) ∧
      ∀ κ' q y, κ'.Number → m.InBounds q.addr κ'.size → Apart p.addr κ.size q.addr κ'.size →
        ∃ m₁ m₂, m.store κ' q y = .ok m₁ ∧ m'.store κ' q y = .ok m₂ ∧ m₁.store κ p x = .ok m₂) ∧
      ∀ p x, x.base ≠ 0 → m.InBounds p.addr Kind.ptr.size →
        ∃ m' w, m.store .ptr p x = .ok m' ∧ m'.load .ptr p = .ok w ∧ w.addr = x.addr ∧ w.bits = 0 := by
  refine ⟨fun κ p x hκ hp => ⟨_, store_eq (.inl hκ) hp x, fun κ' hκ' hsize => load_put hκ hp hκ' hsize,
    fun κ' q hκ' hq hpq => load_put_of_apart hκ hκ' hq hpq, fun b hb => ?_, fun κ' q y hκ' hq hpq => ?_⟩,
    fun p x _ hp => ?_⟩
  · rw [put_eq hκ, byte?_setBytes (by rwa [length_toBytes])]
  · refine ⟨_, _, store_eq (.inl hκ') hq y, store_eq (.inl hκ') ?_ y, ?_⟩
    · rwa [put_eq hκ, inBounds_setBytes]
    · rw [put_put hκ hκ' hpq]
      refine store_eq (.inl hκ) ?_ x
      rwa [put_eq hκ', inBounds_setBytes]
  · refine ⟨_, _, store_eq (.inr rfl) hp x, load_put_ptr hp, ?_, rfl⟩
    rw [Word.addr, Word.ofAddress]
    split
    · rename_i h0
      exact h0.symm
    · exact UInt64.add_zero _

/-- Two buffers, the second long enough for one pointer. -/
def twoBuffers : Memory :=
  ⟨#[#[1, 2, 3, 4], Array.replicate 8 0]⟩

theorem load_store_laws_twoBuffers :
    (∃ m', twoBuffers.store (.int .w16 false) ⟨origin 0, 1⟩ (.ofBits 0x1ff80) = .ok m' ∧
      m'.load (.int .w16 true) ⟨origin 0, 1⟩ = .ok (.ofBits 0xffffffffffffff80) ∧
      m'.byte? (origin 0) = twoBuffers.byte? (origin 0) ∧
      ∃ m₁ m₂, twoBuffers.store .bool ⟨origin 0, 3⟩ (.ofBits 1) = .ok m₁ ∧
        m'.store .bool ⟨origin 0, 3⟩ (.ofBits 1) = .ok m₂ ∧
        m₁.store (.int .w16 false) ⟨origin 0, 1⟩ (.ofBits 0x1ff80) = .ok m₂) ∧
    ∃ m' w, twoBuffers.store .ptr ⟨origin 1, 0⟩ ⟨origin 0, 2⟩ = .ok m' ∧
      m'.load .ptr ⟨origin 1, 0⟩ = .ok w ∧ w.addr = (⟨origin 0, 2⟩ : Word).addr ∧ w.bits = 0 := by
  obtain ⟨hnumber, hptr⟩ := load_store_laws twoBuffers
  have hin : twoBuffers.InBounds (Word.addr ⟨origin 0, 1⟩) (Kind.int .w16 false).size := by decide +kernel
  obtain ⟨m', hm', hback, -, hbytes, hswap⟩ := hnumber _ _ (.ofBits 0x1ff80) (.inr rfl) hin
  have hnorm : (Kind.int .w16 true).norm (Word.ofBits 0x1ff80).bits = 0xffffffffffffff80 := by decide +kernel
  have hload := hback (.int .w16 true) (.inr rfl) rfl
  rw [hnorm] at hload
  have hfree : origin 0 ∉ addresses (Word.addr ⟨origin 0, 1⟩) (Kind.int .w16 false).size := by decide +kernel
  have hin' : twoBuffers.InBounds (Word.addr ⟨origin 0, 3⟩) Kind.bool.size := by decide +kernel
  have hapart : Apart (Word.addr ⟨origin 0, 1⟩) (Kind.int .w16 false).size (Word.addr ⟨origin 0, 3⟩)
      Kind.bool.size := by decide +kernel
  have hslot : twoBuffers.InBounds (Word.addr ⟨origin 1, 0⟩) Kind.ptr.size := by decide +kernel
  exact ⟨⟨m', hm', hload, hbytes _ hfree, hswap _ _ _ (.inl rfl) hin' hapart⟩,
    hptr _ ⟨origin 0, 2⟩ (by decide +kernel) hslot⟩

end Memory

end Codesmith
