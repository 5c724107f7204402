import Codesmith.Describe.Value
import Codesmith.Gen.Generator
import Codesmith.Proofs.Word.Arithmetic

/-!
# Constants

A constant of the host program stands for a value of an integer type exactly if it lies in the range of the
type. The bits that are kept of it are those of its 64 bit pattern, and the word that a back end makes of them
denotes the constant.
-/

namespace Codesmith

theorem Width.ofBits?_bits (w : Width) : Width.ofBits? w.bits = some w := by
  cases w <;> rfl

theorem Ty.kind_int (w : Width) (s : Bool) : (Ty.int w.bits s).kind = .int w s := by
  rw [Ty.kind, Width.ofBits?_bits]

theorem Ty.least_bits (w : Width) : least w.bits true = -2 ^ (w.bits - 1) := by
  cases w <;> rfl

theorem Ty.greatest_bits (w : Width) (s : Bool) :
    ((greatest w.bits s).toNat : Int) = if s then 2 ^ (w.bits - 1) - 1 else 2 ^ w.bits - 1 := by
  cases s <;> cases w <;> rfl

namespace Describe

open Host Gen

variable {w : Width} {s : Bool} {g : HostType} {n : Int} {bits : UInt64}

theorem constBits_eq_some_iff :
    constBits (.int w.bits s) (.int g n) = some bits ↔ w.Range s n ∧ bits = UInt64.ofInt n := by
  have hpos : (0 : Int) < 2 ^ (w.bits - 1) := by positivity
  simp only [constBits, Ty.greatest_bits, Width.Range]
  split
  · -- A negative constant has to be in a signed type, which reaches down to its least value.
    rename_i hneg
    cases s with
    | false => simp [not_le.2 hneg]
    | true =>
      rw [Ty.least_bits]
      by_cases hle : -2 ^ (w.bits - 1) ≤ n
      · simp [hle, hneg.trans hpos, eq_comm]
      · simp [hle]
  · rename_i hneg
    have hle : -2 ^ (w.bits - 1) ≤ n := by omega
    cases s with
    | false =>
      by_cases hlt : n < 2 ^ w.bits
      · simp [not_lt.1 hneg, hlt, eq_comm]
      · simp [hlt]
    | true =>
      by_cases hlt : n < 2 ^ (w.bits - 1)
      · simp [hle, hlt, eq_comm]
      · simp [hlt]

/-- A constant is accepted exactly if the type has it. Then each back end, where it can add a value at all, adds
one word, which is normal and denotes the constant. -/
theorem constants_exact (w : Width) (s : Bool) (g : HostType) (n : Int) :
    ((constBits (.int w.bits s) (.int g n)).isSome = true ↔ w.Range s n) ∧
    ∀ bits, constBits (.int w.bits s) (.int g n) = some bits → ∃ x : UInt64,
      (∀ d : MachineDraft, d.live = .ok () → d.value (.const (.int w.bits s) bits) =
        d.computed (.int w.bits s) fun r => .compute r (.imm x)) ∧
      (∀ (d : SsaDraft) f, d.live = .ok () → d.func = some f → d.value (.const (.int w.bits s) bits) =
        d.add f (.imm x) (.int w.bits s)) ∧
      (Word.ofBits x).Normal (.int w s) ∧ (Word.ofBits x).value s = n := by
  refine ⟨?_, fun bits hbits => ⟨(Kind.int w s).norm bits, fun d hd => ?_, fun d f hd hf => ?_, ?_, ?_⟩⟩
  · simp [Option.isSome_iff_exists, constBits_eq_some_iff]
  · simp [MachineDraft.value, MachineDraft.guarded, hd, Draft.checkOperation, Draft.scalar, Operation.compute,
      Operation.ty, Ty.kind_int, bind, Except.bind]
  · simp [SsaDraft.value, SsaDraft.guarded, hd, hf, Draft.checkOperation, Draft.scalar, Operation.expr, Operation.ty,
      Ty.kind_int, bind, Except.bind]
  · exact Word.normal_norm _ _
  · obtain ⟨hrange, rfl⟩ := constBits_eq_some_iff.1 hbits
    rw [Word.value_norm, Width.wrap_of_range hrange]

/-- The least number of eight signed bits is a constant of its type, and a machine that goes on adds it. -/
theorem constants_exact_leastByte : ∃ bits, constBits (.int 8 true) (.int (.int (some .w16) true) (-128)) = some bits ∧
    ∃ x : UInt64, (Word.ofBits x).value true = -128 ∧
      ((MachineDraft.start {} "f" ⟨[], .void⟩).2.value (.const (.int 8 true) bits)).2.blocks[0]?.map MachineBlock.code =
        some [⟨.compute 0 (.imm x), none⟩] := by
  refine ⟨_, rfl, ?_⟩
  obtain ⟨x, hmachine, -, -, hx⟩ := (constants_exact .w8 true (.int (some .w16) true) (-128)).2 _ rfl
  refine ⟨x, hx, ?_⟩
  rw [show ((8 : Int)) = Width.w8.bits from rfl, hmachine _ rfl]
  rfl

end Describe

end Codesmith
