import Codesmith.Proofs.Describe.Lasting

/-!
# Edits that make no variable

Edits for control flow give variables other values, but they make no variable, and no variable gets
another type. Such edits are `Settled`.
-/

set_option synthInstance.maxSize 512

namespace Codesmith.Describe

variable {α : Type}

/-- Two sketches have variables of the same types. A sketch that is rejected stays so. -/
structure Sketch.Settles (s s' : Sketch) : Prop where
  id : s'.id = s.id
  sig : s'.sig = s.sig
  types : s'.types = s.types
  error : s.error.isSome = true → s'.error.isSome = true

/-- An edit that makes no variable. -/
abbrev Settled (e : Edit α) : Prop :=
  Leads Sketch.Settles e

instance : LastingGen Sketch.Settles where
  beside h := ⟨h.id, h.sig, h.types, h.error⟩
  trans h h' := ⟨h'.id.trans h.id, h'.sig.trans h.sig, h'.types.trans h.types, fun he => h'.error (h.error he)⟩
  gen _ _ := ⟨rfl, rfl, rfl, fun he => he⟩

instance (l : Loop) : Settled (pushLoop l) :=
  leads_modify fun _ => ⟨rfl, rfl, rfl, id⟩

instance (l : Loop) : Settled (popLoop l) :=
  leads_modifyGet fun s => by
    split
    · exact Lasting.beside (.refl s)
    · exact ⟨rfl, rfl, rfl, id⟩

instance (p : LoopPlan) (c : Option Ref) (position : Position) :
    Settled (leaveHead p c position) := by
  unfold leaveHead
  infer_instance

instance (position : Position) : Settled (startDo position) := by
  unfold startDo
  infer_instance

end Codesmith.Describe
