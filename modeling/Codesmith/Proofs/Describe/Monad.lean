import Codesmith.Describe.Flow
import Codesmith.Proofs.Except

/-!
# Steps of edits and descriptions

An edit, an attempt or a description that is made of steps does one after the other. An edit that ends
with a fault leaves no sketch, while a description keeps its workspace.
-/

namespace Codesmith.Describe

variable {α β σ : Type} {s s' : Sketch}
variable {x : Edit α} {f : α → Edit β} {b : β} {a : α}

theorem bind_ok (h : (x >>= f) s = .ok (b, s')) : ∃ a t, x s = .ok (a, t) ∧ f a t = .ok (b, s') := by
  simp only [bind, StateT.bind, Except.bind] at h
  split at h
  · cases h
  · rename_i r hr
    exact ⟨r.1, r.2, hr, h⟩

theorem bind_of_ok {t : Sketch} (h : x s = .ok (a, t)) : (x >>= f) s = f a t := by
  simp only [bind, StateT.bind, Except.bind, h]

theorem get_ok {f : Sketch → Edit β} (h : (get >>= f) s = .ok (b, s')) : f s s = .ok (b, s') :=
  h

theorem lift_ok {x : Except Fault α} (h : (liftM x : Edit α) s = .ok (a, s')) : x = .ok a ∧ s' = s := by
  cases x with
  | error f => cases h
  | ok b => cases h; exact ⟨rfl, rfl⟩

theorem bind_run (x : Describe σ α) (f : α → Describe σ β) (w : Workspace σ) : (x >>= f) w = match x w with
      | (.ok a, w') => f a w'
      | (.error e, w') => (.error e, w') := by
  simp only [bind, ExceptT.bind, ExceptT.mk, StateT.bind]
  rcases x w with ⟨_ | _, _⟩ <;> rfl

/-- An edit of a function leaves the others as they are. -/
theorem edit_run (i : Nat) (e : Edit α) (w : Workspace σ) : (edit i e : Describe σ α) w =
    match w.sketches[i]? with
    | none => (.error .invalidAddress, w)
    | some s => match e s with
      | .error f => (.error f, w)
      | .ok (a, s') => (.ok a, { w with sketches := w.sketches.setIfInBounds i s' }) := by
  have hget : (get : Describe σ (Workspace σ)) w = (.ok w, w) := rfl
  rw [edit, bind_run, hget]
  dsimp only
  cases w.sketches[i]? with
  | none => rfl
  | some s =>
    dsimp only
    cases e s with
    | error f => rfl
    | ok r => rfl

end Codesmith.Describe
