import Codesmith.Proofs.Describe.Typed

/-!
# What accepted calls do

If nothing was rejected in the end, nothing was rejected on the way. So every attempt went through, and
what it did can be told exactly: the values that were used are those of variables in scope, and the
sketch differs only in what the call is meant to change.
-/

namespace Codesmith.Describe

open Gen (Generator)

variable {α β : Type} {s s' : Sketch} {position : Position}
variable {otherwise x : α} {a : Attempt α} {op : String} {u : Unit}

/-! ## Attempts -/

theorem error_reject (s : Sketch) (e : Rejection) : (s.reject e).error ≠ none := by
  unfold Sketch.reject
  split
  · exact nofun
  · rename_i e' he
    split
    · exact nofun
    · rw [he]
      exact nofun

/-- An attempt goes through or is rejected. -/
theorem attempt_cases (h : attempt otherwise a s = .ok (x, s')) :
    a.run s = .ok (.ok x, s') ∨ x = otherwise ∧ s'.error ≠ none := by
  obtain ⟨r, t, ha, h⟩ := bind_ok h
  cases r with
  | ok y =>
    cases h
    exact .inl ha
  | error e =>
    cases h
    exact .inr ⟨rfl, error_reject t e⟩

theorem attempt_ok (h : attempt otherwise a s = .ok (x, s')) (herr : s'.error = none) :
    a.run s = .ok (.ok x, s') :=
  (attempt_cases h).resolve_right fun hrejected => hrejected.2 herr

/-- What is not rejected in the end was not rejected before. -/
theorem Tame.error_eq_none {e : Edit α} [he : Tame e] {a : α} (h : e s = .ok (a, s'))
    (herr : s'.error = none) : s.error = none := by
  have := (he.keeps s a s' h).error
  cases hs : s.error with
  | none => rfl
  | some r =>
    rw [hs, herr] at this
    exact absurd (this rfl) nofun

namespace Attempt

variable {b : β} {a : α}

theorem bind_ok {x : Attempt α} {f : α → Attempt β} (h : (x >>= f).run s = .ok (.ok b, s')) :
    ∃ a t, x.run s = .ok (.ok a, t) ∧ (f a).run t = .ok (.ok b, s') := by
  obtain ⟨r, t, hx, h⟩ := Describe.bind_ok (x := x.run) h
  cases r with
  | ok a => exact ⟨a, t, hx, h⟩
  | error e => cases h

theorem get_ok {f : Sketch → Attempt β} (h : (get >>= f).run s = .ok (.ok b, s')) :
    (f s).run s = .ok (.ok b, s') :=
  h

theorem lift_ok {e : Edit α} (h : (liftM e : Attempt α).run s = .ok (.ok a, s')) : e s = .ok (a, s') := by
  obtain ⟨b, t, he, h⟩ := Describe.bind_ok (x := e) (f := fun a => pure (Except.ok a)) h
  cases h
  exact he

theorem pure_ok {b : α} (h : (pure a : Attempt α).run s = .ok (.ok b, s')) : a = b ∧ s = s' := by
  cases h
  exact ⟨rfl, rfl⟩

theorem check_ok {c : Prop} [Decidable c] {e : Rejection} {f : PUnit → Attempt β}
    (h : (if c then (throw e : Attempt PUnit) >>= f else f PUnit.unit).run s = .ok (.ok b, s')) :
    ¬ c ∧ (f PUnit.unit).run s = .ok (.ok b, s') := by
  split at h
  · cases h
  · exact ⟨‹_›, h⟩

end Attempt

/-- An attempt that is made only when the sketch is ready. -/
theorem ready_ok {f : PUnit → Attempt β} {b : β} (h : (ready op position >>= f).run s = .ok (.ok b, s')) :
    (f ⟨⟩).run s = .ok (.ok b, s') := by
  obtain ⟨u, t, hready, h⟩ := Attempt.bind_ok h
  obtain ⟨-, hready⟩ := Attempt.check_ok (Attempt.get_ok hready)
  cases he : s.error with
  | some e =>
    rw [he] at hready
    cases hready
  | none =>
    rw [he] at hready
    cases hready
    exact h

/-- A value that may be used is that of a variable in scope. -/
theorem use_ok {v : Option Value} {r : Ref} (h : (use op v position).run s = .ok (.ok r, s')) :
    s = s' ∧ ∃ w id x, v = some w ∧ w.owner = s.id ∧ w.var = some id ∧ s.vars[id]? = some x ∧
      s.isClosed x = false ∧ r = x.ref := by
  replace h := Attempt.get_ok h
  cases v with
  | none => cases h
  | some w =>
    obtain ⟨howner, h⟩ := Attempt.check_ok h
    cases hx : w.var.bind fun id => s.vars[id]? with
    | none =>
      rw [hx] at h
      cases h
    | some x =>
      rw [hx] at h
      obtain ⟨hvalid, h⟩ := Attempt.check_ok h
      obtain ⟨hopen, h⟩ := Attempt.check_ok h
      cases h
      obtain ⟨id, hid, hx⟩ := Option.bind_eq_some_iff.1 hx
      exact ⟨rfl, w, id, x, rfl, by simpa using howner, hid, hx, by simpa using hopen, rfl⟩

theorem same_ok {l r : Ty} (h : (same op l r position).run s = .ok (.ok u, s')) : s = s' ∧ l = r := by
  unfold same at h
  split at h
  · cases h
    exact ⟨rfl, Ty.equal_iff.1 ‹_›⟩
  · cases h

theorem kind_ne_invalid_of_isScalar {t : Ty} (h : t.isScalar = true) : t.kind ≠ .invalid := by
  cases t with
  | int bits signed =>
    obtain ⟨w, hw⟩ := Option.isSome_iff_exists.1 h
    simp [Ty.kind, hw]
  | bool => simp [Ty.kind]
  | ptr t => simp [Ty.kind]
  | _ => cases h

theorem operation_run (op : Gen.Operation) (position : Position) (s : Sketch) :
    operation op position s = .ok (((s.gen.setPosition (some position)).value op).1,
      { s with gen := ((s.gen.setPosition (some position)).value op).2 }) :=
  rfl

theorem terminate_run (e : Gen.Exit) (position : Position) (s : Sketch) : terminate e position s =
      .ok ((), { s with gen := (s.gen.setPosition (some position)).terminate e }) :=
  rfl

/-! ## Values of variables -/

namespace Sketch

theorem setRef_vars (s : Sketch) (id : Nat) (ref : Ref) (v : Nat) : (s.setRef id ref).vars[v]? =
    s.vars[v]?.map fun x => if id = v then { x with ref } else x := by
  rw [setRef, Array.getElem?_modify]
  split
  · rfl
  · simp

/-- Giving variables their values leaves everything else as it is. -/
theorem restoreFrom_eq (s : Sketch) (i : Nat) (rs : List Ref) :
    s.restoreFrom i rs = { s with vars := (s.restoreFrom i rs).vars } := by
  induction rs generalizing s i with
  | nil => rfl
  | cons r rs ih =>
    rw [restoreFrom, ih]
    rfl

theorem restoreFrom_vars (s : Sketch) (i : Nat) (rs : List Ref) (v : Nat) : (s.restoreFrom i rs).vars[v]? =
      s.vars[v]?.map fun x => if i ≤ v then { x with ref := rs[v - i]?.getD x.ref } else x := by
  induction rs generalizing s i with
  | nil => simp [restoreFrom]
  | cons r rs ih =>
    rw [restoreFrom, ih, setRef_vars, Option.map_map]
    congr 1
    funext x
    simp only [Function.comp]
    rcases lt_trichotomy i v with h | rfl | h
    · have hi : i ≠ v := h.ne
      obtain ⟨k, rfl⟩ := Nat.exists_eq_add_of_lt h
      rw [if_neg hi, if_pos (show i + 1 ≤ i + k + 1 by omega), if_pos h.le, show i + k + 1 - (i + 1) = k by omega,
        show i + k + 1 - i = k + 1 by omega]
      rfl
    · simp
    · rw [if_neg h.ne', if_neg (by omega), if_neg (by omega)]

theorem keepFrom_eq (s : Sketch) (assigned : BitSet.Plain) (i : Nat) (rs : List Ref) :
    s.keepFrom assigned i rs = { s with vars := (s.keepFrom assigned i rs).vars } := by
  induction rs generalizing s i with
  | nil => rfl
  | cons r rs ih =>
    rw [keepFrom, ih]
    split <;> rfl

theorem keepFrom_vars (s : Sketch) (assigned : BitSet.Plain) (i : Nat) (rs : List Ref) (v : Nat) :
    (s.keepFrom assigned i rs).vars[v]? = s.vars[v]?.map fun x =>
      if i ≤ v ∧ assigned.contains v = false then { x with ref := rs[v - i]?.getD x.ref } else x := by
  induction rs generalizing s i with
  | nil => simp [keepFrom]
  | cons r rs ih =>
    rw [keepFrom, ih]
    have hset : (if assigned.contains i then s else s.setRef i r).vars[v]? = s.vars[v]?.map fun x =>
        if i = v ∧ assigned.contains v = false then { x with ref := r } else x := by
      by_cases hc : assigned.contains i = true
      · rw [if_pos hc]
        have : ¬ (i = v ∧ assigned.contains v = false) := by
          rintro ⟨rfl, h⟩
          rw [hc] at h
          cases h
        simp [this]
      · rw [if_neg hc, setRef_vars]
        congr 1
        funext x
        by_cases hv : i = v
        · subst hv
          simp [Bool.not_eq_true _ ▸ hc]
        · simp [hv]
    rw [hset, Option.map_map]
    congr 1
    funext x
    simp only [Function.comp]
    by_cases hc : assigned.contains v = false
    · simp only [hc, and_true]
      rcases lt_trichotomy i v with h | rfl | h
      · obtain ⟨k, rfl⟩ := Nat.exists_eq_add_of_lt h
        rw [if_neg h.ne, if_pos (show i + 1 ≤ i + k + 1 by omega), if_pos h.le,
          show i + k + 1 - (i + 1) = k by omega, show i + k + 1 - i = k + 1 by omega]
        rfl
      · simp
      · rw [if_neg h.ne', if_neg (by omega), if_neg (by omega)]
    · simp [hc]

theorem snapshot_getElem? (s : Sketch) (n v : Nat) :
    (s.snapshot n)[v]? = if v < n then s.vars[v]?.map Var.ref else none := by
  rw [snapshot, Array.getElem?_map, Array.getElem?_extract]
  simp only [Nat.zero_add, Nat.sub_zero]
  by_cases hv : v < n
  · by_cases hs : v < s.vars.size
    · simp [hv, hs]
    · simp [hv, hs]
  · simp [hv]

theorem snapshot_size {n : Nat} (h : n ≤ s.vars.size) : (s.snapshot n).size = n := by
  simp [snapshot, h]

end Sketch

end Codesmith.Describe
