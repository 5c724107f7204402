import Codesmith.Proofs.Except
import Codesmith.Execution

/-!
# Looking up and writing by signed index

Small facts on `fetch`, `fetch?` and `Registers.write`, which take indexes that may be negative.
-/

namespace Codesmith

variable {α : Type} {xs : Array α} {x : α}
variable {i : Int} {n : Nat}

@[simp] theorem fetch?_natCast (xs : Array α) (n : Nat) : fetch? xs (n : Int) = xs[n]? := rfl

theorem fetch?_eq_some_iff : fetch? xs i = some x ↔ ∃ n : Nat, i = n ∧ xs[n]? = some x := by
  cases i with
  | ofNat n =>
    constructor
    · exact fun h => ⟨n, rfl, h⟩
    · rintro ⟨k, hk, h⟩
      rwa [← Int.ofNat_inj.1 hk] at h
  | negSucc n =>
    refine iff_of_false nofun ?_
    rintro ⟨k, hk, -⟩
    cases hk

theorem fetch?_isSome_iff : (fetch? xs i).isSome = true ↔ 0 ≤ i ∧ i < xs.size := by
  cases i with
  | ofNat n => simp [fetch?]
  | negSucc n => simp [fetch?]

theorem fetch?_push (xs : Array α) (x : α) (i : Int) :
    fetch? (xs.push x) i = if i = xs.size then some x else fetch? xs i := by
  cases i with
  | ofNat n => simp only [Int.ofNat_eq_natCast, fetch?_natCast, Array.getElem?_push, Int.natCast_inj]
  | negSucc n =>
    rw [if_neg (by intro h; cases h)]
    rfl

theorem fetch?_modify (xs : Array α) (n : Nat) (f : α → α) (i : Int) :
    fetch? (xs.modify n f) i = if i = n then (fetch? xs i).map f else fetch? xs i := by
  cases i with
  | ofNat k =>
    simp only [Int.ofNat_eq_natCast, fetch?_natCast, Array.getElem?_modify, Int.natCast_inj, eq_comm (a := n)]
  | negSucc k =>
    rw [if_neg (by intro h; cases h)]
    rfl

theorem fetch_eq_ok_iff : fetch xs i = .ok x ↔ fetch? xs i = some x := by
  cases i with
  | ofNat n =>
    simp only [fetch, fetch?]
    cases xs[n]? <;> simp
  | negSucc n => simp [fetch, fetch?]

theorem fetch_natCast (h : xs[n]? = some x) : fetch xs (n : Int) = .ok x :=
  fetch_eq_ok_iff.2 h

theorem write_natCast (r : Registers) (h : n < r.size) (w : Word) :
    Registers.write r (n : Int) w = .ok (r.setIfInBounds n w) := if_pos h

/-! ## Registers as values -/

/-- The word in a register; what is no register holds zero. -/
def Registers.read (r : Registers) (x : Reg) : Word :=
  (fetch? r x).getD Word.zero

namespace Registers

variable {r : Registers}

theorem fetch_eq_read {x : Reg} (h0 : 0 ≤ x) (h1 : x < r.size) : fetch r x = .ok (r.read x) := by
  obtain ⟨w, hw⟩ := Option.isSome_iff_exists.1 (fetch?_isSome_iff.2 ⟨h0, h1⟩)
  rw [fetch_eq_ok_iff, read, hw]
  rfl

theorem read_set {n : Nat} (h : n < r.size) (w : Word) :
    read (r.setIfInBounds n w) = Function.update r.read n w := by
  funext x
  cases x with
  | negSucc k =>
    rw [Function.update_of_ne (by intro h; cases h)]
    rfl
  | ofNat k =>
    simp only [read, Int.ofNat_eq_natCast, fetch?_natCast, Array.getElem?_setIfInBounds,
      Function.update_apply, Int.natCast_inj]
    by_cases hk : n = k
    · subst hk
      simp [h]
    · simp [hk, Ne.symm hk]

theorem read_replicate (n : Nat) (x : Reg) : read (Array.replicate n Word.zero) x = Word.zero := by
  unfold read
  cases x with
  | negSucc k => rfl
  | ofNat k =>
    simp only [Int.ofNat_eq_natCast, fetch?_natCast, Array.getElem?_replicate]
    split <;> rfl

end Registers

end Codesmith
