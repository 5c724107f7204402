import Codesmith.Proofs.Ty.Layout

/-!
# Layouts of the host program

The host program lays out structs by the same rules, with one exception: a struct that takes up memory and ends
with a field that does not is given one byte more before its size is rounded up, so that the address of the last
field lies inside the struct. Structs without such an end have the same layout on both sides, to any depth; the
others have not.
-/

namespace Codesmith.Ty

mutual

/-- The size that the host program gives to a type. -/
def hostSize : Ty → Nat
  | void => 0
  | bool => 1
  | int bits _ => bits.toNat / 8
  | ptr _ => 8
  | array elem n => hostSize elem * n.toNat
  | struct fields => roundUp (hostEnd 0 false fields) (grainAll fields)
  | func _ _ => 8

/-- Where fields that are placed from `e` on end, with the byte behind a last field of size zero. The flag says
whether the field before them was one. -/
def hostEnd (e : Nat) (hollow : Bool) : List (Field Ty) → Nat
  | [] => if e ≠ 0 ∧ hollow = true then e + 1 else e
  | ⟨_, _, ty⟩ :: fs => hostEnd (roundUp e (grain ty) + hostSize ty) (hostSize ty == 0) fs

end

/-- Where the host program places fields from `off` on. -/
def hostOffsets (off : Nat) : List (Field Ty) → List Int
  | [] => []
  | ⟨_, _, ty⟩ :: fs => roundUp off (grain ty) :: hostOffsets (roundUp off (grain ty) + hostSize ty) fs

mutual

/-- No struct in the type takes up memory and ends with a field that does not. -/
def Tight : Ty → Prop
  | array elem _ => Tight elem
  | struct fields => TightAll fields ∧
      ∀ f, fields.getLast? = some f → f.ty.extent = 0 → endFrom 0 fields = 0
  | _ => True

@[inherit_doc Tight]
def TightAll : List (Field Ty) → Prop
  | [] => True
  | ⟨_, _, ty⟩ :: fs => Tight ty ∧ TightAll fs

end

mutual

theorem hostSize_eq : ∀ {t : Ty}, t.Tight → t.hostSize = t.extent
  | void, _ | bool, _ | int _ _, _ | ptr _, _ | func _ _, _ => by simp only [hostSize, extent]
  | array elem n, h => by
    have helem : elem.Tight := h
    rw [hostSize, extent, hostSize_eq helem]
  | struct fields, h => by
    rw [hostSize, extent, hostEnd_eq h.1 fun hend => ?_]
    cases hlast : fields.getLast? with
    | none => simp [hlast] at hend
    | some f => exact h.2 f hlast (by simpa [hlast] using hend)

/-- The end is the same if the last field takes up memory, or all of them do not. -/
theorem hostEnd_eq : ∀ {fs : List (Field Ty)} {e : Nat} {hollow : Bool}, TightAll fs →
    (((fs.getLast?.map fun f => f.ty.extent == 0).getD hollow) = true → endFrom e fs = 0) →
    hostEnd e hollow fs = endFrom e fs
  | [], e, hollow, _, hend => by
    rw [endFrom] at hend ⊢
    rw [hostEnd, if_neg]
    exact fun h => h.1 (hend h.2)
  | ⟨_, _, ty⟩ :: fs, e, hollow, h, hend => by
    rw [hostEnd, endFrom, hostSize_eq h.1, hostEnd_eq h.2 fun hlast => ?_]
    refine hend ?_
    rw [List.getLast?_cons]
    revert hlast
    cases fs.getLast? <;> simp

end

theorem TightAll.of_mem {fs : List (Field Ty)} (h : TightAll fs) {f : Field Ty} (hf : f ∈ fs) : f.ty.Tight := by
  induction fs with
  | nil => cases hf
  | cons g fs ih =>
    rcases List.mem_cons.1 hf with rfl | hf
    · exact h.1
    · exact ih h.2 hf

theorem Stacked.hostOffsets {fs : List (Field Ty)} {off : Nat} (hs : Stacked off fs) (h : ∀ f ∈ fs, f.ty.Tight) :
    fs.map Field.offset = hostOffsets off fs := by
  induction fs generalizing off with
  | nil => rfl
  | cons f fs ih =>
    rw [List.forall_mem_cons] at h
    rw [List.map_cons, hs.1, ih hs.2 h.2, Ty.hostOffsets, hostSize_eq h.1]

/-- Structs are laid out as the host program does it. Fields of types that are built from scalars, arrays and structs
can be laid out; and unless a size reaches `2 ^ 63` or a struct that takes up memory ends with a field that does not,
the offsets of all fields, the size and the alignment of the struct are those of the host program. -/
theorem layout_as_host (fields : List (String × Ty)) (h : ∀ f ∈ fields, Built f.2 ∧ f.2.Fits) :
    ∃ fs, ofFields fields = .ok (.struct fs) ∧ fs.map (fun f => (f.name, f.ty)) = fields ∧
      ((struct fs).extent < 2 ^ 63 → (struct fs).Tight →
        fs.map Field.offset = hostOffsets 0 fs ∧ (struct fs).size = .ok ((struct fs).hostSize : Nat) ∧
        (struct fs).align = .ok (grainAll fs : Nat)) := by
  obtain ⟨fs, hp⟩ := exists_placeFields (fun f hf => (h f hf).1.sound (h f hf).2) 0
  have hsound : ∀ f ∈ fs, f.ty.Sound := fun f hf =>
    (h _ (ty_of_placeFields hp hf)).1.sound (h _ (ty_of_placeFields hp hf)).2
  refine ⟨fs, by rw [ofFields, hp]; rfl, names_of_placeFields hp, fun hlt htight => ?_⟩
  have hs := stacked_of_placeFields hp hsound (endFrom_lt hsound hlt)
  have hstruct := sound_struct hsound hs hlt
  refine ⟨hs.hostOffsets fun f hf => htight.1.of_mem hf, ?_, by rw [hstruct.align, grain]⟩
  rw [hstruct.size, hostSize_eq htight]

/-- A flag, two bytes and a number, behind an array without elements. -/
theorem layout_as_host_nested : ∃ fs, ofFields [("none", .array .i64 0), ("flag", .bool),
      ("bytes", .array (.int 8 false) 2), ("n", .int 32 true)] = .ok (.struct fs) ∧
    fs.map Field.offset = hostOffsets 0 fs ∧ (struct fs).size = .ok ((struct fs).hostSize : Nat) := by
  obtain ⟨fs, hof, -, hsame⟩ := layout_as_host [("none", .array .i64 0), ("flag", .bool),
      ("bytes", .array (.int 8 false) 2), ("n", .int 32 true)] (by
    simp only [List.forall_mem_cons, List.not_mem_nil, false_implies, implies_true, and_true]
    refine ⟨⟨.array 0 (.int .w64 true), trivial, by decide⟩, ⟨.bool, trivial⟩, ⟨.array 2 (.int .w8 false), trivial, ?_⟩,
      .int .w32 true, trivial⟩
    decide)
  cases hof
  obtain ⟨hoffsets, hsize, -⟩ := hsame (by decide) ⟨⟨trivial, trivial, trivial, trivial, trivial⟩, by
    rintro f ⟨⟩ hzero
    cases hzero⟩
  exact ⟨_, rfl, hoffsets, hsize⟩

/-- A number before an array without elements: the host program adds a byte, and rounds up to twice the size. -/
theorem hollow_end_differs : ∃ fs, ofFields [("a", .i64), ("b", .array .i64 0)] = .ok (.struct fs) ∧
    fs.map Field.offset = hostOffsets 0 fs ∧ (struct fs).size = .ok 8 ∧ (struct fs).hostSize = 16 :=
  ⟨_, rfl, rfl, rfl, rfl⟩

end Codesmith.Ty
