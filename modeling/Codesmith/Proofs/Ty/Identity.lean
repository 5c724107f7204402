import Codesmith.Proofs.Ssa.Removal
import Codesmith.Ty.Layout

/-!
# Identity of types

The comparison of types tells apart all trees: it holds of a type and itself and of nothing else. What is read
off a type is therefore the same for types that compare as equal. The removal of trivial phis relies on it. The
check of a function compares the type of each phi with the types of the values that it merges, so a phi and the
value that takes its place have the same type in the end, however many phis were followed on the way.
-/

namespace Codesmith.Ssa

/-! ## The types of replaced phis -/

namespace Replaced

variable {s : Replaced} {ty : Ref → Ty}

/-- Whatever takes the place of a phi has its type. -/
def Typed (s : Replaced) (ty : Ref → Ty) : Prop :=
  ∀ x v, s.value? x = some v → ty v = ty x

theorem Typed.follow (h : s.Typed ty) (n : Nat) (x : Ref) : ty (s.follow n x) = ty x := by
  induction n generalizing x with
  | zero => rfl
  | succ n ih =>
    rw [Replaced.follow]
    cases hx : s.value? x with
    | none => rfl
    | some v => exact (ih v).trans (h x v hx)

theorem Typed.insert {id : Nat} {v : Ref} (h : s.Typed ty) (hid : id < s.values.size) (hv : ty v = ty id) :
    (s.insert id v).Typed ty := by
  intro x y hxy
  rw [insert_value? hid] at hxy
  split at hxy
  · rename_i hx
    cases hxy
    rw [hx, hv]
  · exact h x y hxy

end Replaced

namespace Func

variable {f : Func} {g : Graph} {phis : List Nat} {w : PhiSearch} {id : Nat}

/-- The value that takes the place of a phi is one of those that the phi merges, or took the place of one. -/
theorem typed_inspect (h : w.replaced.Typed f.tyOf) (hid : id < w.replaced.values.size)
    (hbranches : ∀ b ∈ f.branches id, f.tyOf b.value = f.tyOf id) : (f.inspect w id).replaced.Typed f.tyOf := by
  unfold inspect
  dsimp only
  split
  · exact h
  split
  · exact h
  · rename_i hv
    obtain ⟨-, -, hfound⟩ := soleValue_spec rfl hv
    obtain ⟨b, hb, hbv, -⟩ := hfound rfl
    refine h.insert hid ?_
    rw [← hbv, Replaced.apply, h.follow, hbranches b hb]

theorem typed_loop (hlt : ∀ id ∈ phis, id < f.entries.size)
    (hvals : ∀ id ∈ phis, ∀ b ∈ f.branches id, b.value ≠ noRef)
    (hbranches : ∀ id ∈ phis, ∀ b ∈ f.branches id, f.tyOf b.value = f.tyOf id) (fuel : Nat)
    (hs : w.Sound f phis) (h : w.replaced.Typed f.tyOf) : (f.replaceTrivial fuel w).Typed f.tyOf := by
  induction fuel generalizing w with
  | zero => exact h
  | succ fuel ih =>
    rw [replaceTrivial]
    cases hmin : w.queue.min? with
    | none => exact h
    | some id =>
      have hid := hs.queue id (Std.TreeSet.min?_eq_some_iff_mem_and_forall.1 hmin).1
      exact ih (sound_inspect hlt hvals hs hid) (typed_inspect h (hs.size ▸ hlt id hid) (hbranches id hid))

theorem Accepted.typed (h : f.Accepted g) : f.trivialPhis.Typed f.tyOf := by
  obtain ⟨hlt, hvals⟩ := h.searched
  refine typed_loop hlt hvals (fun id hid br hbr => ?_) _ sound_start fun x v hx => ?_
  · obtain ⟨l, b, hb, hl, hmem⟩ := mem_phisOf.1 hid
    obtain ⟨-, -, -, -, hty⟩ := h.branch l b id br hb ((h.reach l).1 hl) hmem hbr
    exact hty
  · have hnone := (Replaced.ends_empty f.entries.size).free x
    cases hnone.symm.trans hx

end Func

end Codesmith.Ssa

namespace Codesmith.Ty

/-! ## The comparison of types -/

/-- The comparison of types decides whether they are the same tree. So it is an equivalence, types that compare
as equal have the same size, alignment and kind, and in a function that was pruned and passed its check whatever
stands for a phi has a type that compares as equal to the type of the phi, and its kind. -/
theorem equal_decides_identity : (∀ a b : Ty, a.equal b = true ↔ a = b) ∧ (∀ a : Ty, a.equal a = true) ∧
      (∀ a b : Ty, a.equal b = true → b.equal a = true) ∧
      (∀ a b c : Ty, a.equal b = true → b.equal c = true → a.equal c = true) ∧
      (∀ a b : Ty, a.equal b = true →
        a.size = b.size ∧ a.align = b.align ∧ a.kind = b.kind ∧ a.isScalar = b.isScalar) ∧
      ∀ {f f₁ f₂ : Ssa.Func} {g : Graph}, f.Made → f.prune = .ok f₁ → f₁.verify = .ok (f₂, .ok g) →
        ∀ x, (f₁.tyOf (f₁.trivialPhis.apply x)).equal (f₁.tyOf x) = true ∧
          (f₁.tyOf (f₁.trivialPhis.apply x)).kind = (f₁.tyOf x).kind := by
  refine ⟨fun a b => equal_iff, equal_refl, fun a b hab => ?_, fun a b c hab hbc => ?_, fun a b hab => ?_,
    fun hf hp hv x => ?_⟩
  · rw [eq_of_equal hab]
    exact equal_refl b
  · rwa [eq_of_equal hab]
  · rw [eq_of_equal hab]
    exact ⟨rfl, rfl, rfl, rfl⟩
  · rw [Ssa.Replaced.apply, (Ssa.Func.accepted_of_verify hf.tabled hp hv).typed.follow]
    exact ⟨equal_refl _, rfl⟩

theorem equal_decides_identity_fillLoop : ∃ f₁ f₂ g, Ssa.Func.fillLoop.prune = .ok f₁ ∧
    f₁.verify = .ok (f₂, .ok g) ∧ f₁.trivialPhis.apply 6 = 0 ∧
    (f₁.tyOf 0).equal (f₁.tyOf 6) = true ∧ (f₁.tyOf 0).kind = (f₁.tyOf 6).kind := by
  obtain ⟨f₁, f₂, g, hp, hv, hx⟩ : ∃ f₁ f₂ g, Ssa.Func.fillLoop.prune = .ok f₁ ∧
    f₁.verify = .ok (f₂, .ok g) ∧ f₁.trivialPhis.apply 6 = 0 := ⟨_, _, _, rfl, rfl, by cbv⟩
  obtain ⟨hequal, hkind⟩ := equal_decides_identity.2.2.2.2.2 Ssa.Func.made_fillLoop hp hv 6
  rw [hx] at hequal hkind
  exact ⟨f₁, f₂, g, hp, hv, hx, hequal, hkind⟩

end Codesmith.Ty
