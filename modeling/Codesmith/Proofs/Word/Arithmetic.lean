import Codesmith.Proofs.Word.Normal

/-!
# The arithmetic of integer words

A normal word of an integer kind denotes an integer: its bits, read with or without a sign. All operations
compute with 64 bits and normalize what they get, so every result is an integer that was computed exactly and
then reduced into the range of the kind (`value_norm`). What an operation does to an integer is told by
the integer that its 64 bits stand for, and what it does to the pattern of the bits that count by
`pattern_norm`.
-/

namespace Codesmith

/-! ## Ranges -/

namespace Width

theorem bits_le (w : Width) : w.bits ≤ 64 := by
  cases w <;> decide

/-- The integer in the range of the width that agrees with `n` modulo a power of two. -/
def wrap (w : Width) (signed : Bool) (n : Int) : Int :=
  if signed then n.bmod (2 ^ w.bits) else n % 2 ^ w.bits

def Range (w : Width) (signed : Bool) (n : Int) : Prop :=
  if signed then -2 ^ (w.bits - 1) ≤ n ∧ n < 2 ^ (w.bits - 1) else 0 ≤ n ∧ n < 2 ^ w.bits

variable (w : Width) (s : Bool) (n : Int)

theorem range_wrap : w.Range s (w.wrap s n) := by
  cases s <;> cases w <;> simp only [Range, wrap, bits, Int.bmod] <;> simp <;> omega

theorem wrap_emod : w.wrap s n % 2 ^ w.bits = n % 2 ^ w.bits := by
  cases s <;> cases w <;> simp only [wrap, bits, Int.bmod] <;> simp <;> omega

variable {w s n}

theorem wrap_of_range (h : w.Range s n) : w.wrap s n = n := by
  cases s <;> cases w <;> simp only [Range, wrap, bits, Int.bmod] at h ⊢ <;> simp at h ⊢ <;> omega

/-- The range is the same whether an integer or one between it and zero is looked at. -/
theorem Range.between {m : Int} (h : w.Range s n) (hm : 0 ≤ m ∧ m ≤ n ∨ n ≤ m ∧ m ≤ 0) : w.Range s m := by
  cases s <;> cases w <;> simp only [Range, bits] at h ⊢ <;> simp at h ⊢ <;> omega

/-- Integers that agree modulo the power of two of 64 bits are reduced alike. -/
theorem wrap_emod_64 : w.wrap s (n % 2 ^ 64) = w.wrap s n := by
  cases s <;> cases w <;> simp only [wrap, bits, Int.bmod] <;> simp <;> omega

end Width

namespace Word

variable {c : UInt64}

/-- The integer that a word denotes. -/
def value (signed : Bool) (x : Word) : Int :=
  if signed then x.bits.toInt64.toInt else x.bits.toNat

def pattern (w : Width) (x : Word) : BitVec w.bits :=
  x.bits.toBitVec.setWidth w.bits

variable {w : Width} {s : Bool} {l r x : Word} {n : Int} {z : UInt64}

/-! ## Integers and 64 bits -/

theorem toNat_ofInt (n : Int) : ((UInt64.ofInt n).toNat : Int) = n % 2 ^ 64 := by
  rw [UInt64.ofInt, UInt64.toNat_ofNat']
  omega

theorem ofInt_bmod (n : Int) : UInt64.ofInt (n.bmod (2 ^ 64)) = UInt64.ofInt n := by
  rw [UInt64.ofInt, UInt64.ofInt]
  congr 2
  exact Int.bmod_emod

/-- The bits of a word stand for the integer that the word denotes. -/
theorem ofInt_value (s : Bool) (x : Word) : UInt64.ofInt (x.value s) = x.bits := by
  cases s with
  | false => exact Host.HostValue.ofInt_toNat x.bits
  | true => exact Host.HostValue.ofInt_toInt64 x.bits

theorem toBitVec_norm_signed (w : Width) (z : UInt64) :
    ((Kind.int w true).norm z).toBitVec = (z.toBitVec.setWidth w.bits).signExtend 64 := by
  cases w with
  | w64 => exact (BitVec.signExtend_eq _).symm
  | _ => rfl

theorem toBitVec_norm_unsigned (w : Width) (z : UInt64) :
    ((Kind.int w false).norm z).toBitVec = (z.toBitVec.setWidth w.bits).setWidth 64 := by
  cases w <;> rfl

theorem value_norm_bits (w : Width) (s : Bool) (z : UInt64) :
    (ofBits ((Kind.int w s).norm z)).value s = w.wrap s z.toNat := by
  cases s with
  | false =>
    show (((Kind.int w false).norm z).toBitVec.toNat : Int) = _
    rw [toBitVec_norm_unsigned, BitVec.toNat_setWidth_of_le w.bits_le, BitVec.toNat_setWidth]
    exact Int.natCast_emod _ _
  | true =>
    show ((Kind.int w true).norm z).toBitVec.toInt = _
    rw [toBitVec_norm_signed, BitVec.toInt_signExtend_of_le w.bits_le, BitVec.toInt_setWidth]
    rfl

/-- Normal bits denote the integer that the bits stand for, reduced into the range of the kind. -/
theorem value_norm (w : Width) (s : Bool) (n : Int) :
    (ofBits ((Kind.int w s).norm (UInt64.ofInt n))).value s = w.wrap s n := by
  rw [value_norm_bits, toNat_ofInt, Width.wrap_emod_64]

/-- A normal word denotes an integer in the range of its kind. -/
theorem wrap_value (hx : x.Normal (.int w s)) : w.wrap s (x.value s) = x.value s := by
  have hnorm := value_norm w s (x.value s)
  rw [ofInt_value, (hx (.inl rfl)).2] at hnorm
  exact hnorm.symm

theorem range_value (hx : x.Normal (.int w s)) : w.Range s (x.value s) :=
  wrap_value hx ▸ w.range_wrap s _

theorem bits_eq_zero_iff (s : Bool) (x : Word) : x.bits = 0 ↔ x.value s = 0 := by
  constructor
  · intro h
    cases s <;> simp [value, h]
  · intro h
    rw [← ofInt_value s x, h]
    rfl

/-- The bits that count are those that were normalized. -/
theorem pattern_norm (w : Width) (s : Bool) (z : UInt64) :
    (ofBits ((Kind.int w s).norm z)).pattern w = z.toBitVec.setWidth w.bits := by
  cases s with
  | false =>
    show ((Kind.int w false).norm z).toBitVec.setWidth w.bits = _
    rw [toBitVec_norm_unsigned]
    rw [BitVec.setWidth_setWidth_of_le _ w.bits_le, BitVec.setWidth_eq]
  | true =>
    show ((Kind.int w true).norm z).toBitVec.setWidth w.bits = _
    rw [toBitVec_norm_signed]
    ext i hi
    have hi' : i < 64 := lt_of_lt_of_le hi w.bits_le
    simp [BitVec.getElem_signExtend, hi, hi']

/-! ## Results -/

def Denotes (w : Width) (s : Bool) (result : Except Fault Word) (n : Int) : Prop :=
  ∃ z, result = .ok z ∧ z.Normal (.int w s) ∧ z.value s = n

/-- The result is a normal word with a pattern of bits that count. -/
def Shows (w : Width) (s : Bool) (result : Except Fault Word) (p : BitVec w.bits) : Prop :=
  ∃ z, result = .ok z ∧ z.Normal (.int w s) ∧ z.pattern w = p

theorem denotes_norm (h : z = UInt64.ofInt n) :
    Denotes w s (.ok (ofBits ((Kind.int w s).norm z))) (w.wrap s n) :=
  ⟨_, rfl, normal_norm _ z, h ▸ value_norm w s n⟩

theorem shows_norm {p : BitVec w.bits} (h : z.toBitVec.setWidth w.bits = p) :
    Shows w s (.ok (ofBits ((Kind.int w s).norm z))) p :=
  ⟨_, rfl, normal_norm _ z, (pattern_norm w s z).trans h⟩

/-! ## Sums and products -/

theorem denotes_add (s : Bool) (l r : Word) :
    Denotes w s (binary .add (.int w s) l r) (w.wrap s (l.value s + r.value s)) :=
  denotes_norm (by rw [UInt64.ofInt_add, ofInt_value, ofInt_value])

theorem denotes_sub (s : Bool) (l r : Word) :
    Denotes w s (binary .sub (.int w s) l r) (w.wrap s (l.value s - r.value s)) :=
  denotes_norm (by rw [Int.sub_eq_add_neg, UInt64.ofInt_add, UInt64.ofInt_neg, ofInt_value, ofInt_value,
    UInt64.sub_eq_add_neg])

theorem denotes_mul (s : Bool) (l r : Word) :
    Denotes w s (binary .mul (.int w s) l r) (w.wrap s (l.value s * r.value s)) :=
  denotes_norm (by rw [UInt64.ofInt_mul, ofInt_value, ofInt_value])

/-! ## Quotients and remainders -/

theorem quotient_bits (s : Bool) (l r : Word) :
    (if s then (l.bits.toInt64 / r.bits.toInt64).toUInt64 else l.bits / r.bits) =
      UInt64.ofInt ((l.value s).tdiv (r.value s)) := by
  cases s with
  | false =>
    rw [if_neg Bool.false_ne_true, ← Host.HostValue.ofInt_toNat (l.bits / r.bits), UInt64.toNat_div]
    rfl
  | true =>
    rw [if_pos rfl, ← Host.HostValue.ofInt_toInt64 (l.bits.toInt64 / r.bits.toInt64).toUInt64,
      Int64.toInt64_toUInt64, Int64.toInt_div, ofInt_bmod]
    rfl

theorem remainder_bits (s : Bool) (l r : Word) :
    (if s then (l.bits.toInt64 % r.bits.toInt64).toUInt64 else l.bits % r.bits) =
      UInt64.ofInt ((l.value s).tmod (r.value s)) := by
  cases s with
  | false =>
    rw [if_neg Bool.false_ne_true, ← Host.HostValue.ofInt_toNat (l.bits % r.bits), UInt64.toNat_mod]
    rfl
  | true =>
    rw [if_pos rfl, ← Host.HostValue.ofInt_toInt64 (l.bits.toInt64 % r.bits.toInt64).toUInt64,
      Int64.toInt64_toUInt64, Int64.toInt_mod]
    rfl

/-- A remainder lies between the dividend and zero. -/
theorem tmod_between (a b : Int) : 0 ≤ a.tmod b ∧ a.tmod b ≤ a ∨ a ≤ a.tmod b ∧ a.tmod b ≤ 0 := by
  have habs := Int.natAbs_tmod a b
  have hle := Nat.mod_le a.natAbs b.natAbs
  rcases le_total 0 a with ha | ha
  · have := Int.tmod_nonneg b ha
    omega
  · have hneg := Int.tmod_nonneg b (Int.neg_nonneg.2 ha)
    rw [Int.neg_tmod] at hneg
    omega

/-- Only the quotient of the least integer and `-1` lies out of range. -/
theorem range_tdiv {a b : Int} (ha : w.Range s a) (hb : w.Range s b)
    (h : ¬ (s = true ∧ a = -2 ^ (w.bits - 1) ∧ b = -1)) : w.Range s (a.tdiv b) := by
  cases s with
  | false =>
    have ha' : 0 ≤ a := ha.1
    have hb' : 0 ≤ b := hb.1
    exact ha.between (.inl ⟨Int.tdiv_nonneg ha' hb', Int.tdiv_le_self b ha'⟩)
  | true =>
    have habs : (a.tdiv b).natAbs = a.natAbs / b.natAbs := Int.natAbs_tdiv a b
    have ha' : -2 ^ (w.bits - 1) ≤ a ∧ a < 2 ^ (w.bits - 1) := ha
    show -2 ^ (w.bits - 1) ≤ a.tdiv b ∧ a.tdiv b < 2 ^ (w.bits - 1)
    have hpos : (0 : Int) < 2 ^ (w.bits - 1) := by positivity
    obtain hb0 | hb1 | hb2 : b.natAbs = 0 ∨ b.natAbs = 1 ∨ 2 ≤ b.natAbs := by omega
    · rw [hb0, Nat.div_zero] at habs
      omega
    · rcases Int.natAbs_eq_iff.1 hb1 with rfl | rfl
      · simpa using ha'
      · have hne : a ≠ -2 ^ (w.bits - 1) := fun heq => h ⟨rfl, heq, rfl⟩
        have : a.tdiv (-((1 : Nat) : Int)) = -a := by simp [Int.tdiv_neg]
        omega
    · have := Nat.div_le_div_left hb2 Nat.zero_lt_two (a := a.natAbs)
      omega

/-- Division truncates toward zero. The quotient of the least integer and `-1` is the least integer again,
since the exact one is out of range. -/
theorem denotes_div (hl : l.Normal (.int w s)) (hr : r.Normal (.int w s)) (h : r.value s ≠ 0) :
    Denotes w s (binary .div (.int w s) l r)
      (if s = true ∧ l.value s = -2 ^ (w.bits - 1) ∧ r.value s = -1 then l.value s
        else (l.value s).tdiv (r.value s)) := by
  have hbits : r.bits ≠ 0 := fun hz => h ((bits_eq_zero_iff s r).1 hz)
  have hresult : binary .div (.int w s) l r =
      .ok (ofBits ((Kind.int w s).norm (UInt64.ofInt ((l.value s).tdiv (r.value s))))) := by
    rw [← quotient_bits, binary, binaryBits]
    cases s <;> simp [hbits, Kind.signed, Except.map]
  rw [hresult]
  convert denotes_norm rfl using 1
  split
  · rename_i hleast
    obtain ⟨rfl, hl', hr'⟩ := hleast
    rw [hl', hr']
    cases w <;> rfl
  · exact (Width.wrap_of_range (range_tdiv (range_value hl) (range_value hr) ‹_›)).symm

/-- The remainder is that of truncating division. -/
theorem denotes_rem (hl : l.Normal (.int w s)) (h : r.value s ≠ 0) :
    Denotes w s (binary .rem (.int w s) l r) ((l.value s).tmod (r.value s)) := by
  have hbits : r.bits ≠ 0 := fun hz => h ((bits_eq_zero_iff s r).1 hz)
  have hresult : binary .rem (.int w s) l r =
      .ok (ofBits ((Kind.int w s).norm (UInt64.ofInt ((l.value s).tmod (r.value s))))) := by
    rw [← remainder_bits, binary, binaryBits]
    cases s <;> simp [hbits, Kind.signed, Except.map]
  have hrange := (range_value hl).between (tmod_between (l.value s) (r.value s))
  rw [hresult, ← Width.wrap_of_range hrange]
  exact denotes_norm (by rw [Width.wrap_of_range hrange])

theorem divideByZero (h : r.value s = 0) :
    binary .div (.int w s) l r = .error .divideByZero ∧ binary .rem (.int w s) l r = .error .divideByZero := by
  have hbits := (bits_eq_zero_iff s r).2 h
  constructor <;> simp [binary, binaryBits, hbits, Except.map]

/-! ## Patterns -/

theorem shows_and (s : Bool) (l r : Word) :
    Shows w s (binary .and (.int w s) l r) (l.pattern w &&& r.pattern w) :=
  shows_norm BitVec.setWidth_and

theorem shows_or (s : Bool) (l r : Word) :
    Shows w s (binary .or (.int w s) l r) (l.pattern w ||| r.pattern w) :=
  shows_norm BitVec.setWidth_or

theorem shows_xor (s : Bool) (l r : Word) :
    Shows w s (binary .xor (.int w s) l r) (l.pattern w ^^^ r.pattern w) :=
  shows_norm BitVec.setWidth_xor

theorem shows_not (s : Bool) (x : Word) : Shows w s (unary .not (.int w s) x) (~~~x.pattern w) :=
  shows_norm (BitVec.setWidth_not w.bits_le)

theorem shows_neg (s : Bool) (x : Word) : Shows w s (unary .neg (.int w s) x) (-x.pattern w) := by
  refine shows_norm ?_
  rw [UInt64.zero_sub, UInt64.toBitVec_neg]
  exact BitVec.setWidth_neg_of_le w.bits_le

/-! ## Shifts -/

/-- The count of a shift: what a word denotes, modulo the width. -/
def count (w : Width) (s : Bool) (x : Word) : Nat :=
  (x.value s % w.bits).toNat

theorem bits_eq_pow (w : Width) : ∃ n ≤ 6, w.bits = 2 ^ n := by
  cases w
  exacts [⟨3, by decide, rfl⟩, ⟨4, by decide, rfl⟩, ⟨5, by decide, rfl⟩, ⟨6, by decide, rfl⟩]

theorem toNat_mask (w : Width) (b : UInt64) : (b &&& UInt64.ofNat (w.bits - 1)).toNat = b.toNat % w.bits := by
  obtain ⟨n, hn, hbits⟩ := bits_eq_pow w
  have hlt : 2 ^ n - 1 < 2 ^ 64 :=
    lt_of_le_of_lt (Nat.sub_le _ _) (Nat.pow_lt_pow_right (by decide) (by omega))
  rw [UInt64.toNat_and, UInt64.toNat_ofNat', hbits, Nat.mod_eq_of_lt hlt, Nat.and_two_pow_sub_one_eq_mod]

theorem toNat_count (w : Width) (s : Bool) (x : Word) :
    (x.bits &&& UInt64.ofNat (w.bits - 1)).toNat = count w s x := by
  obtain ⟨n, hn, hbits⟩ := bits_eq_pow w
  have hdvd : ((2 ^ n : Nat) : Int) ∣ 2 ^ 64 :=
    Int.natCast_dvd_natCast.2 (pow_dvd_pow 2 (show n ≤ 64 by omega))
  have hvalue : (x.bits.toNat : Int) = x.value s % 2 ^ 64 := by rw [← toNat_ofInt, ofInt_value]
  have hcast : ((x.bits.toNat % 2 ^ n : Nat) : Int) = x.value s % (2 ^ n : Nat) := by
    rw [Int.natCast_emod, hvalue, Int.emod_emod_of_dvd _ hdvd]
  rw [toNat_mask, count, hbits, ← hcast, Int.toNat_natCast]

theorem count_lt (w : Width) (s : Bool) (x : Word) : count w s x < w.bits := by
  rw [← toNat_count, toNat_mask]
  exact Nat.mod_lt _ (by cases w <;> decide)

theorem shiftLeft_bits (s : Bool) (l : Word) (hc : c.toNat < 64) :
    l.bits <<< c = UInt64.ofInt (l.value s * 2 ^ c.toNat) := by
  have hpow : (UInt64.ofInt (2 ^ c.toNat)).toNat = 2 ^ c.toNat := by
    have hlt : (2 : Int) ^ c.toNat < 2 ^ 64 := pow_lt_pow_right₀ (by decide) hc
    have hcast := toNat_ofInt (2 ^ c.toNat)
    rw [Int.emod_eq_of_lt (by positivity) hlt] at hcast
    exact_mod_cast hcast
  apply UInt64.toNat_inj.1
  rw [UInt64.ofInt_mul, ofInt_value, UInt64.toNat_shiftLeft, UInt64.toNat_mul, hpow, Nat.mod_eq_of_lt hc,
    Nat.shiftLeft_eq]

theorem smod_of_lt {c : BitVec 64} (hc : c.toNat < 64) : c.smod 64#64 = c := by
  have htoInt : c.toInt = c.toNat := BitVec.toInt_eq_toNat_of_lt (by omega)
  apply BitVec.eq_of_toInt_eq
  rw [BitVec.toInt_smod, htoInt]
  exact Int.fmod_eq_of_lt (by omega) (by simp; omega)

theorem shiftRight_bits (s : Bool) (l : Word) (hc : c.toNat < 64) :
    (if s then (l.bits.toInt64 >>> c.toInt64).toUInt64 else l.bits >>> c) =
      UInt64.ofInt (l.value s / 2 ^ c.toNat) := by
  cases s with
  | false =>
    rw [if_neg Bool.false_ne_true, ← Host.HostValue.ofInt_toNat (l.bits >>> c), UInt64.toNat_shiftRight,
      Nat.mod_eq_of_lt hc, Nat.shiftRight_eq_div_pow]
    simp [value]
  | true =>
    have htoInt : (l.bits.toInt64 >>> c.toInt64).toInt = l.bits.toInt64.toInt / 2 ^ c.toNat := by
      show (l.bits.toInt64 >>> c.toInt64).toBitVec.toInt = _
      rw [Int64.toBitVec_shiftRight]
      show (l.bits.toBitVec.sshiftRight' (c.toBitVec.smod 64#64)).toInt = _
      rw [smod_of_lt hc, BitVec.sshiftRight', BitVec.toInt_sshiftRight, Int.shiftRight_eq_div_pow]
      push_cast
      rfl
    rw [if_pos rfl, ← Host.HostValue.ofInt_toInt64 (l.bits.toInt64 >>> c.toInt64).toUInt64,
      Int64.toInt64_toUInt64, htoInt]
    rfl

/-- A shift to the left multiplies by a power of two. -/
theorem denotes_shl (s : Bool) (l r : Word) :
    Denotes w s (binary .shl (.int w s) l r) (w.wrap s (l.value s * 2 ^ count w s r)) := by
  have hlt : (r.bits &&& UInt64.ofNat (w.bits - 1)).toNat < 64 := by
    rw [toNat_count w s]
    exact lt_of_lt_of_le (count_lt w s r) w.bits_le
  rw [← toNat_count]
  exact denotes_norm (shiftLeft_bits s l hlt)

/-- What is left of an integer after a shift lies between it and zero. -/
theorem ediv_between (a : Int) (n : Nat) : 0 ≤ a / 2 ^ n ∧ a / 2 ^ n ≤ a ∨ a ≤ a / 2 ^ n ∧ a / 2 ^ n ≤ 0 := by
  have hpos : (0 : Int) < 2 ^ n := by positivity
  rcases le_or_gt 0 a with ha | ha
  · exact .inl ⟨Int.ediv_nonneg ha hpos.le, Int.ediv_le_self _ ha⟩
  · refine .inr ⟨(Int.le_ediv_iff_mul_le hpos).2 ?_, (Int.ediv_neg_of_neg_of_pos ha hpos).le⟩
    nlinarith

/-- A shift to the right divides by a power of two and rounds down. -/
theorem denotes_shr (r : Word) (hl : l.Normal (.int w s)) :
    Denotes w s (binary .shr (.int w s) l r) ((l.value s).fdiv (2 ^ count w s r)) := by
  have hlt : (r.bits &&& UInt64.ofNat (w.bits - 1)).toNat < 64 := by
    rw [toNat_count w s]
    exact lt_of_lt_of_le (count_lt w s r) w.bits_le
  have hresult : binary .shr (.int w s) l r =
      .ok (ofBits ((Kind.int w s).norm (UInt64.ofInt (l.value s / 2 ^ count w s r)))) := by
    rw [← toNat_count, ← shiftRight_bits s l hlt, binary, binaryBits]
    cases s <;> rfl
  have hrange := (range_value hl).between (ediv_between (l.value s) (count w s r))
  rw [hresult, Int.fdiv_eq_ediv_of_nonneg _ (by positivity), ← Width.wrap_of_range hrange]
  exact denotes_norm (by rw [Width.wrap_of_range hrange])

end Word

/-! ## Conditions and conversions -/

/-- A condition on two integers. -/
def Cond.Holds : Cond → Int → Int → Prop
  | eq, a, b => a = b
  | ne, a, b => a ≠ b
  | lt, a, b => a < b
  | le, a, b => a ≤ b
  | gt, a, b => b < a
  | ge, a, b => b ≤ a
  | unknown _, _, _ => False

instance Cond.decidableHolds : (c : Cond) → (a b : Int) → Decidable (c.Holds a b)
  | eq, a, b => inferInstanceAs (Decidable (a = b))
  | ne, a, b => inferInstanceAs (Decidable (a ≠ b))
  | lt, a, b => inferInstanceAs (Decidable (a < b))
  | le, a, b => inferInstanceAs (Decidable (a ≤ b))
  | gt, a, b => inferInstanceAs (Decidable (b < a))
  | ge, a, b => inferInstanceAs (Decidable (b ≤ a))
  | unknown _, _, _ => inferInstanceAs (Decidable False)

namespace Word

variable {w : Width} {s : Bool} {l r x : Word}

theorem compare_int {c : Cond} (hc : c.valid = true) :
    compare c (.int w s) l r = .ok (decide (c.Holds (l.value s) (r.value s))) := by
  cases s with
  | false =>
    show holds c l.bits r.bits = _
    cases c <;> simp_all [holds, Cond.Holds, value, Cond.valid, UInt64.lt_iff_toNat_lt, UInt64.le_iff_toNat_le, ← UInt64.toNat_inj]
  | true =>
    show holds c l.bits.toInt64 r.bits.toInt64 = _
    cases c <;> simp_all [holds, Cond.Holds, value, Cond.valid, Int64.lt_iff_toInt_lt, Int64.le_iff_toInt_le, ← Int64.toInt_inj]

/-- A conversion between integers reduces into the range of the target. -/
theorem denotes_convert {w' : Width} {s' : Bool} (hx : x.Normal (.int w s)) :
    Denotes w' s' (convert (.int w' s') (.int w s) x) (w'.wrap s' (x.value s)) := by
  rw [convert]
  split
  · rename_i heq
    obtain ⟨rfl, rfl⟩ := Kind.int.inj heq
    exact ⟨x, rfl, hx, (wrap_value hx).symm⟩
  · exact denotes_norm (ofInt_value s x).symm

theorem convert_bool (w : Width) (s : Bool) (x : Word) :
    convert .bool (.int w s) x = .ok (ofBool (decide (x.value s ≠ 0))) := by
  rw [convert, if_neg nofun, if_neg nofun, if_neg nofun, if_pos rfl]
  congr 2
  simp [bne, ← bits_eq_zero_iff, beq_eq_decide]

/-! ## All operations -/

theorem value_eq_pattern (hx : x.Normal (.int w s)) :
    x.value s = if s then (x.pattern w).toInt else ((x.pattern w).toNat : Int) := by
  have hvalue := value_norm_bits w s x.bits
  rw [(hx (.inl rfl)).2] at hvalue
  refine (show x.value s = _ from hvalue).trans ?_
  cases s with
  | false =>
    rw [if_neg Bool.false_ne_true, pattern, BitVec.toNat_setWidth]
    exact (Int.natCast_emod _ _).symm
  | true =>
    rw [if_pos rfl, pattern, BitVec.toInt_setWidth]
    rfl

/-- The remainder is smaller than the divisor and has the sign of the dividend. -/
theorem tmod_spec (a : Int) {b : Int} (hb : b ≠ 0) :
    |a.tmod b| < |b| ∧ (0 ≤ a → 0 ≤ a.tmod b) ∧ (a ≤ 0 → a.tmod b ≤ 0) := by
  have habs := Int.natAbs_tmod a b
  have hlt := Nat.mod_lt a.natAbs (Int.natAbs_pos.2 hb)
  have hbetween := tmod_between a b
  refine ⟨?_, by omega, by omega⟩
  rw [Int.abs_eq_natAbs, Int.abs_eq_natAbs]
  omega

/-- Integer words compute as two's complement integers. Sums, differences and products are exact and then
reduced into the range of the kind; division truncates toward zero and fails for the divisor zero only;
logical operations and negation act on the pattern of the bits that count; shifts multiply and divide by a
power of two, their count being taken modulo the width; conditions compare the integers; conversions reduce
into the range of the target. Every result is normal again. -/
theorem integers_exact (w : Width) (s : Bool) {l r : Word} (hl : l.Normal (.int w s)) (hr : r.Normal (.int w s)) :
    (∀ n, w.Range s (w.wrap s n) ∧ w.wrap s n ≡ n [ZMOD 2 ^ w.bits]) ∧
    Denotes w s (binary .add (.int w s) l r) (w.wrap s (l.value s + r.value s)) ∧
    Denotes w s (binary .sub (.int w s) l r) (w.wrap s (l.value s - r.value s)) ∧
    Denotes w s (binary .mul (.int w s) l r) (w.wrap s (l.value s * r.value s)) ∧
    (r.value s = 0 → binary .div (.int w s) l r = .error .divideByZero ∧
      binary .rem (.int w s) l r = .error .divideByZero) ∧
    (r.value s ≠ 0 → ∃ q m, Denotes w s (binary .div (.int w s) l r) q ∧ Denotes w s (binary .rem (.int w s) l r) m ∧
      |m| < |r.value s| ∧ (0 ≤ l.value s → 0 ≤ m) ∧ (l.value s ≤ 0 → m ≤ 0) ∧
      if s = true ∧ l.value s = -2 ^ (w.bits - 1) ∧ r.value s = -1 then q = l.value s ∧ m = 0
      else q = (l.value s).tdiv (r.value s) ∧ l.value s = q * r.value s + m) ∧
    Shows w s (binary .and (.int w s) l r) (l.pattern w &&& r.pattern w) ∧
    Shows w s (binary .or (.int w s) l r) (l.pattern w ||| r.pattern w) ∧
    Shows w s (binary .xor (.int w s) l r) (l.pattern w ^^^ r.pattern w) ∧
    Shows w s (unary .not (.int w s) l) (~~~l.pattern w) ∧
    Shows w s (unary .neg (.int w s) l) (-l.pattern w) ∧
    (l.value s = if s then (l.pattern w).toInt else ((l.pattern w).toNat : Int)) ∧
    Denotes w s (binary .shl (.int w s) l r) (w.wrap s (l.value s * 2 ^ (r.value s % w.bits).toNat)) ∧
    Denotes w s (binary .shr (.int w s) l r) ((l.value s).fdiv (2 ^ (r.value s % w.bits).toNat)) ∧
    (∀ c : Cond, c.valid = true → compare c (.int w s) l r = .ok (decide (c.Holds (l.value s) (r.value s)))) ∧
    (∀ w' s', Denotes w' s' (convert (.int w' s') (.int w s) l) (w'.wrap s' (l.value s))) ∧
    convert .bool (.int w s) l = .ok (ofBool (decide (l.value s ≠ 0))) ∧
    (ofBool (decide (l.value s ≠ 0))).Normal .bool := by
  refine ⟨fun n => ⟨w.range_wrap s n, w.wrap_emod s n⟩, denotes_add s l r, denotes_sub s l r, denotes_mul s l r,
    divideByZero, fun hzero => ?_, shows_and s l r, shows_or s l r, shows_xor s l r, shows_not s l, shows_neg s l,
    value_eq_pattern hl, denotes_shl s l r, denotes_shr r hl, fun c hc => compare_int hc,
    fun w' s' => denotes_convert hl, convert_bool w s l, normal_ofBool _⟩
  obtain ⟨hlt, hnonneg, hnonpos⟩ := tmod_spec (l.value s) hzero
  refine ⟨_, _, denotes_div hl hr hzero, denotes_rem hl hzero, hlt, hnonneg, hnonpos, ?_⟩
  split
  · rename_i hleast
    exact ⟨rfl, by rw [hleast.2.2, Int.tmod_neg, Int.tmod_one]⟩
  · exact ⟨rfl, (Int.tdiv_mul_add_tmod _ _).symm⟩

/-- The least signed byte is divided by `-1`, and shifted by that count. -/
theorem integers_exact_leastByte :
    let least := ofBits ((Kind.int .w8 true).norm 128)
    let minusOne := ofBits ((Kind.int .w8 true).norm 255)
    Denotes .w8 true (binary .div (.int .w8 true) least minusOne) (-128) ∧
    Denotes .w8 true (binary .rem (.int .w8 true) least minusOne) 0 ∧
    Denotes .w8 true (binary .shr (.int .w8 true) least minusOne) (-1) ∧
    Denotes .w8 true (binary .sub (.int .w8 true) least minusOne) (-127) := by
  obtain ⟨-, -, hsub, -, -, hdiv, -, -, -, -, -, -, -, hshr, -⟩ :=
    integers_exact .w8 true (normal_norm (.int .w8 true) 128) (normal_norm (.int .w8 true) 255)
  obtain ⟨q, m, hq, hm, -, -, -, hcase⟩ := hdiv (by decide)
  rw [if_pos (by decide)] at hcase
  obtain ⟨rfl, rfl⟩ := hcase
  exact ⟨hq, hm, hshr, hsub⟩

end Word

end Codesmith
