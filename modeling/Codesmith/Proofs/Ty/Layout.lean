import Codesmith.Proofs.Except
import Codesmith.Ty.Layout

/-!
# Sound layouts

A type that is built from truth values, integers of the four widths, pointers, arrays and structs has a
size and an alignment by exact arithmetic: `extent` and `grain`. As long as the sizes of a type and of all
its parts are below `2 ^ 63`, nothing wraps, and the numbers that the program computes are the exact ones.

Alignments are powers of two, and sizes are multiples of them. The fields of a struct stand in order, each
at the first multiple of its alignment behind the field before it, and the struct ends at the first multiple
of its own alignment behind all fields.
-/

namespace Codesmith.Ty

variable {n a off : Nat} {t : Ty} {f : Field Ty} {fields : List (String × Ty)}

/-! ## Exact sizes -/

/-- The least multiple of `a` that is not below `n`, without a bound on numbers. -/
def roundUp (n a : Nat) : Nat :=
  (n + a - 1) / a * a

mutual

/-- The alignment of a type, by exact arithmetic. -/
def grain : Ty → Nat
  | void => 1
  | bool => 1
  | int bits _ => bits.toNat / 8
  | ptr _ => 8
  | array elem _ => grain elem
  | struct fields => grainAll fields
  | func _ _ => 8

/-- The greatest alignment of the fields. -/
def grainAll : List (Field Ty) → Nat
  | [] => 1
  | ⟨_, _, ty⟩ :: fs => max (grain ty) (grainAll fs)

end

mutual

/-- The size of a type, by exact arithmetic. The offsets of fields do not matter: fields are placed anew. -/
def extent : Ty → Nat
  | void => 0
  | bool => 1
  | int bits _ => bits.toNat / 8
  | ptr _ => 8
  | array elem n => extent elem * n.toNat
  | struct fields => roundUp (endFrom 0 fields) (grainAll fields)
  | func _ _ => 8

/-- Where the last of the fields ends if they are placed from `e` on. -/
def endFrom (e : Nat) : List (Field Ty) → Nat
  | [] => e
  | ⟨_, _, ty⟩ :: fs => endFrom (roundUp e (grain ty) + extent ty) fs

end

mutual

/-- The sizes of a type and of all its parts are below `2 ^ 63`. -/
def Fits : Ty → Prop
  | array elem n => Fits elem ∧ extent (array elem n) < 2 ^ 63
  | struct fields => FitsAll fields ∧ extent (struct fields) < 2 ^ 63
  | _ => True

@[inherit_doc Fits]
def FitsAll : List (Field Ty) → Prop
  | [] => True
  | ⟨_, _, ty⟩ :: fs => Fits ty ∧ FitsAll fs

end

/-- A type that is built from truth values, integers of a width, pointers, arrays, and structs of laid out
fields. -/
inductive Built : Ty → Prop
  | bool : Built .bool
  | int (w : Width) (signed : Bool) : Built (.int w.bits signed)
  | ptr (elem : Ty) : Built (.ptr elem)
  | array {elem : Ty} (n : Nat) : Built elem → Built (.array elem n)
  | struct {fields : List (String × Ty)} {t : Ty} : (∀ f ∈ fields, Built f.2) → ofFields fields = .ok t → Built t

/-! ## Rounding up -/

theorem isLeast_roundUp (ha : 0 < a) : IsLeast {k : Int | (a : Int) ∣ k ∧ (n : Int) ≤ k} (roundUp n a) := by
  refine ⟨⟨?_, ?_⟩, ?_⟩
  · rw [roundUp, Nat.cast_mul]
    exact Int.dvd_mul_left _ _
  · have hlt := Nat.lt_div_mul_add (a := n + a - 1) ha
    rw [roundUp]
    omega
  · rintro k ⟨⟨c, rfl⟩, hk⟩
    obtain ⟨c, rfl⟩ : ∃ m : Nat, c = m := Int.eq_ofNat_of_zero_le (by
      by_contra hneg
      have := Int.mul_neg_of_pos_of_neg (Int.natCast_pos.2 ha) (not_le.1 hneg)
      omega)
    have hc : (n + a - 1) / a ≤ c := by
      have hn : n ≤ c * a := by rw [mul_comm]; exact_mod_cast hk
      rw [← Nat.lt_succ_iff, Nat.div_lt_iff_lt_mul ha, Nat.succ_mul]
      omega
    rw [roundUp, mul_comm (a : Int)]
    exact_mod_cast Nat.mul_le_mul_right a hc

theorem le_roundUp (ha : 0 < a) : n ≤ roundUp n a :=
  Int.ofNat_le.1 (isLeast_roundUp ha).1.2

theorem dvd_roundUp (n a : Nat) : a ∣ roundUp n a :=
  Nat.dvd_mul_left _ _

theorem wrapSize_natCast (h : n < 2 ^ 63) : wrapSize n = n := by
  rw [wrapSize, Int.bmod_eq_of_le] <;> omega

/-- Rounding up does not wrap if the result is small enough. -/
theorem alignUp_natCast (ha : a ∣ 8) (h : roundUp n a < 2 ^ 63) : alignUp n a = roundUp n a := by
  have hpos : 0 < a := Nat.pos_of_dvd_of_pos ha (by decide)
  rw [alignUp]
  split
  · obtain rfl : a = 1 := by omega
    simp [roundUp]
  -- The result is a multiple of the alignment below `2 ^ 63`, which leaves room for rounding.
  have hroom : n + a - 1 < 2 ^ 63 := by
    have hlt : n + a - 1 < roundUp n a + a := Nat.lt_div_mul_add hpos
    have hstep : a ≤ 2 ^ 63 - roundUp n a :=
      Nat.le_of_dvd (Nat.sub_pos_of_lt h) (Nat.dvd_sub (ha.trans (by decide)) (dvd_roundUp n a))
    omega
  have hcast : (n : Int) + a - 1 = ((n + a - 1 : Nat) : Int) := by omega
  rw [hcast, wrapSize_natCast hroom, ← Int.ofNat_tdiv, ← Nat.cast_mul]
  exact wrapSize_natCast h

/-! ## Alignments -/

theorem dvd_of_le_of_dvd_eight {b : Nat} (ha : a ∣ 8) (hb : b ∣ 8) (h : a ≤ b) : a ∣ b := by
  have ha1 := Nat.le_of_dvd (by decide) ha
  have hb1 := Nat.le_of_dvd (by decide) hb
  interval_cases a <;> interval_cases b <;> omega

/-- A type whose size and alignment are computed exactly. -/
structure Sound (t : Ty) : Prop where
  size : t.size = .ok t.extent
  align : t.align = .ok t.grain
  grain_dvd : t.grain ∣ 8
  dvd_extent : t.grain ∣ t.extent

theorem Sound.pos (h : t.Sound) : 0 < t.grain :=
  Nat.pos_of_dvd_of_pos h.grain_dvd (by decide)

variable {fs : List (Field Ty)}

theorem grainAll_dvd (h : ∀ f ∈ fs, f.ty.Sound) : grainAll fs ∣ 8 := by
  induction fs with
  | nil => exact one_dvd 8
  | cons f fs ih =>
    rw [List.forall_mem_cons] at h
    rw [grainAll]
    rcases max_choice f.ty.grain (grainAll fs) with hmax | hmax <;> rw [hmax]
    · exact h.1.grain_dvd
    · exact ih h.2

theorem grain_le_grainAll (hf : f ∈ fs) : f.ty.grain ≤ grainAll fs := by
  induction fs with
  | nil => cases hf
  | cons g fs ih =>
    rw [grainAll]
    rcases List.mem_cons.1 hf with rfl | hf
    · exact le_max_left _ _
    · exact (ih hf).trans (le_max_right _ _)

theorem alignFields_eq (h : ∀ f ∈ fs, f.ty.Sound) (ha : 0 < a) :
    alignFields a fs = .ok (max a (grainAll fs) : Nat) := by
  induction fs generalizing a with
  | nil => rw [grainAll, max_eq_left ha, alignFields]
  | cons f fs ih =>
    rw [List.forall_mem_cons] at h
    rw [alignFields, h.1.align]
    dsimp only
    rw [← Nat.cast_max, ih h.2 (lt_max_of_lt_left ha), grainAll, max_assoc]

/-! ## Fields in order -/

/-- The fields stand one behind the other from `off` on, each at the next multiple of its alignment. -/
def Stacked : Nat → List (Field Ty) → Prop
  | _, [] => True
  | off, f :: fs => f.offset = roundUp off f.ty.grain ∧ Stacked (roundUp off f.ty.grain + f.ty.extent) fs

theorem le_endFrom (h : ∀ f ∈ fs, f.ty.Sound) (off : Nat) : off ≤ endFrom off fs := by
  induction fs generalizing off with
  | nil => exact le_rfl
  | cons f fs ih =>
    rw [List.forall_mem_cons] at h
    calc off ≤ roundUp off f.ty.grain := le_roundUp h.1.pos
      _ ≤ roundUp off f.ty.grain + f.ty.extent := Nat.le_add_right _ _
      _ ≤ endFrom off (f :: fs) := ih h.2 _

theorem placeFields_cons {name : String} {ty : Ty} {off : Int}
    (h : placeFields off ((name, ty) :: fields) = .ok fs) :
    ∃ a s fs', ty.align = .ok a ∧ ty.size = .ok s ∧ placeFields (wrapSize (alignUp off a + s)) fields = .ok fs' ∧
      fs = ⟨name, alignUp off a, ty⟩ :: fs' := by
  rw [placeFields] at h
  split at h
  · rename_i a s ha hs
    obtain ⟨fs', hrest, rfl⟩ := map_eq_ok.1 h
    exact ⟨a, s, fs', ha, hs, hrest, rfl⟩
  · cases h
  · cases h

theorem names_of_placeFields {off : Int} (hp : placeFields off fields = .ok fs) :
    fs.map (fun f => (f.name, f.ty)) = fields := by
  induction fields generalizing off fs with
  | nil =>
    cases hp
    rfl
  | cons f fields ih =>
    obtain ⟨a, s, fs', -, -, hp', rfl⟩ := placeFields_cons hp
    rw [List.map_cons, ih hp']

theorem stacked_of_placeFields (hp : placeFields off fields = .ok fs)
    (h : ∀ f ∈ fs, f.ty.Sound) (hend : endFrom off fs < 2 ^ 63) : Stacked off fs := by
  induction fields generalizing off fs with
  | nil =>
    cases hp
    trivial
  | cons f fields ih =>
    obtain ⟨a, s, fs', ha, hs, hp, rfl⟩ := placeFields_cons hp
    rw [List.forall_mem_cons] at h
    obtain rfl : a = f.2.grain := Except.ok.inj (ha.symm.trans h.1.align)
    obtain rfl : s = f.2.extent := Except.ok.inj (hs.symm.trans h.1.size)
    have hlt : roundUp off f.2.grain + f.2.extent < 2 ^ 63 := (le_endFrom h.2 _).trans_lt hend
    have hoff : alignUp off f.2.grain = roundUp off f.2.grain := alignUp_natCast h.1.grain_dvd (by omega)
    rw [hoff, ← Nat.cast_add, wrapSize_natCast hlt] at hp
    exact ⟨hoff, ih hp h.2 hend⟩

theorem endOfFields_eq (h : ∀ f ∈ fs, f.ty.Sound) (hs : Stacked off fs) (hend : endFrom off fs < 2 ^ 63) :
    endOfFields off fs = .ok (endFrom off fs) := by
  induction fs generalizing off with
  | nil => rw [endOfFields, endFrom]
  | cons f fs ih =>
    rw [List.forall_mem_cons] at h
    obtain ⟨hoff, hs⟩ := hs
    have hlt : roundUp off f.ty.grain + f.ty.extent < 2 ^ 63 := (le_endFrom h.2 _).trans_lt hend
    rw [endOfFields, h.1.size]
    dsimp only
    rw [hoff, ← Nat.cast_add, wrapSize_natCast hlt, ih h.2 hs hend, endFrom]

theorem Stacked.within (h : ∀ f ∈ fs, f.ty.Sound) (hs : Stacked off fs) (hf : f ∈ fs) :
    (f.ty.grain : Int) ∣ f.offset ∧ off ≤ f.offset ∧ f.offset + f.ty.extent ≤ endFrom off fs := by
  induction fs generalizing off with
  | nil => cases hf
  | cons g fs ih =>
    rw [List.forall_mem_cons] at h
    obtain ⟨hoff, hs⟩ := hs
    rcases List.mem_cons.1 hf with rfl | hf
    · rw [hoff]
      refine ⟨Int.natCast_dvd_natCast.2 (dvd_roundUp _ _), Int.ofNat_le.2 (le_roundUp h.1.pos), ?_⟩
      exact_mod_cast le_endFrom h.2 (roundUp off f.ty.grain + f.ty.extent)
    · obtain ⟨hdvd, hle, hin⟩ := ih h.2 hs hf
      have := le_roundUp (n := off) h.1.pos
      exact ⟨hdvd, by omega, hin⟩

theorem Stacked.next (h : ∀ f ∈ fs, f.ty.Sound) (hs : Stacked off fs) {i : Nat} {g : Field Ty}
    (hf : fs[i]? = some f) (hg : fs[i + 1]? = some g) :
    IsLeast {k : Int | (g.ty.grain : Int) ∣ k ∧ f.offset + f.ty.extent ≤ k} g.offset := by
  induction fs generalizing off i with
  | nil => cases hf
  | cons e fs ih =>
    rw [List.forall_mem_cons] at h
    obtain ⟨hoff, hs⟩ := hs
    cases i with
    | succ i => exact ih h.2 hs hf hg
    | zero =>
      obtain rfl := Option.some.inj hf
      cases fs with
      | nil => cases hg
      | cons g' fs =>
        obtain rfl := Option.some.inj hg
        rw [hs.1, hoff]
        exact_mod_cast isLeast_roundUp (h.2 g' List.mem_cons_self).pos

/-- What ends behind all fields ends behind the last one. -/
theorem Stacked.endFrom_le (hs : Stacked off fs) {m : Int} (hoff : off ≤ m)
    (hm : ∀ f ∈ fs, f.offset + f.ty.extent ≤ m) : endFrom off fs ≤ m := by
  induction fs generalizing off with
  | nil => exact hoff
  | cons f fs ih =>
    rw [List.forall_mem_cons] at hm
    exact ih hs.2 (by rw [Nat.cast_add, ← hs.1]; exact hm.1) hm.2

/-! ## Sound types -/

theorem ty_of_placeFields {off : Int} (hp : placeFields off fields = .ok fs)
    (hf : f ∈ fs) : (f.name, f.ty) ∈ fields :=
  names_of_placeFields hp ▸ List.mem_map_of_mem hf

theorem ofFields_ok (h : ofFields fields = .ok t) :
    ∃ fs, placeFields 0 fields = .ok fs ∧ t = .struct fs := by
  obtain ⟨fs, hp, rfl⟩ := map_eq_ok.1 h
  exact ⟨fs, hp, rfl⟩

theorem fits_of_fitsAll (h : FitsAll fs) (hf : f ∈ fs) : f.ty.Fits := by
  induction fs with
  | nil => cases hf
  | cons g fs ih =>
    rcases List.mem_cons.1 hf with rfl | hf
    · exact h.1
    · exact ih h.2 hf

theorem endFrom_lt (h : ∀ f ∈ fs, f.ty.Sound) (hlt : (struct fs).extent < 2 ^ 63) : endFrom 0 fs < 2 ^ 63 := by
  rw [extent] at hlt
  exact (le_roundUp (Nat.pos_of_dvd_of_pos (grainAll_dvd h) (by decide))).trans_lt hlt

/-- The size and the alignment of a struct are computed exactly if those of its fields are. -/
theorem sound_struct (h : ∀ f ∈ fs, f.ty.Sound) (hs : Stacked 0 fs) (hlt : (struct fs).extent < 2 ^ 63) :
    (struct fs).Sound := by
  have hgrain := grainAll_dvd h
  have hmax : max 1 (grainAll fs) = grainAll fs := max_eq_right (Nat.pos_of_dvd_of_pos hgrain (by decide))
  have halign : alignFields 1 fs = .ok (grainAll fs) := by
    have := alignFields_eq h Nat.one_pos
    rwa [hmax] at this
  have hend : endOfFields 0 fs = .ok (endFrom 0 fs) := endOfFields_eq h hs (endFrom_lt h hlt)
  refine ⟨?_, ?_, ?_, ?_⟩
  · rw [extent] at hlt ⊢
    rw [size, hend, halign]
    exact congrArg Except.ok (alignUp_natCast hgrain hlt)
  · rw [align, halign, grain]
  · rwa [grain]
  · rw [grain, extent]
    exact dvd_roundUp _ _

theorem Built.sound (h : Built t) (hf : t.Fits) : t.Sound := by
  induction h with
  | bool => exact ⟨rfl, rfl, one_dvd 8, one_dvd 1⟩
  | int w signed =>
    have hgrain : w.bits / 8 ∣ 8 := by cases w <;> decide
    exact ⟨by cases w <;> rfl, by cases w <;> rfl, hgrain, dvd_refl (w.bits / 8)⟩
  | ptr elem => exact ⟨rfl, rfl, dvd_refl 8, dvd_refl 8⟩
  | @array elem n _ ih =>
    have helem := ih hf.1
    have hlt : elem.extent * n < 2 ^ 63 := hf.2
    refine ⟨?_, helem.align, helem.grain_dvd, helem.dvd_extent.mul_right _⟩
    rw [size, helem.size]
    show Except.ok (wrapSize (elem.extent * n)) = .ok (elem.extent * n : Nat)
    rw [← Nat.cast_mul, wrapSize_natCast hlt]
  | @struct fields t _ hof ih =>
    obtain ⟨fs, hp, rfl⟩ := ofFields_ok hof
    have hsound : ∀ f ∈ fs, f.ty.Sound := fun f hmem => ih _ (ty_of_placeFields hp hmem) (fits_of_fitsAll hf.1 hmem)
    exact sound_struct hsound (stacked_of_placeFields hp hsound (endFrom_lt hsound hf.2)) hf.2

/-! ## Layouts -/

/-- The fields of a struct of size `s` and alignment `a` are laid out soundly. -/
structure LaidOut (fs : List (Field Ty)) (s a : Int) : Prop where
  /-- Each field has a size and an alignment, stands at a multiple of its alignment and ends in the struct.
  Where the struct is aligned, the field is. -/
  field : ∀ f ∈ fs, ∃ sf af, f.ty.size = .ok sf ∧ f.ty.align = .ok af ∧ af ∣ f.offset ∧ 0 ≤ f.offset ∧
    f.offset + sf ≤ s ∧ af ∣ a
  first : ∀ f, fs.head? = some f → f.offset = 0
  /-- A field stands at the first multiple of its alignment behind the field before it. -/
  next : ∀ i f g sf ag, fs[i]? = some f → fs[i + 1]? = some g → f.ty.size = .ok sf → g.ty.align = .ok ag →
    IsLeast {k | ag ∣ k ∧ f.offset + sf ≤ k} g.offset
  /-- The struct ends at the first multiple of its alignment behind all fields. -/
  least : IsLeast {k | 0 ≤ k ∧ a ∣ k ∧ ∀ f ∈ fs, ∀ sf, f.ty.size = .ok sf → f.offset + sf ≤ k} s

theorem laidOut_struct (h : ∀ f ∈ fs, f.ty.Sound) (hs : Stacked 0 fs) :
    LaidOut fs (struct fs).extent (struct fs).grain := by
  have hgrain := grainAll_dvd h
  have hleast := isLeast_roundUp (n := endFrom 0 fs) (Nat.pos_of_dvd_of_pos hgrain (by decide))
  rw [extent, grain]
  refine ⟨fun f hf => ?_, fun f hf => ?_, fun i f g sf ag hf hg hsf hag => ?_, ⟨?_, ?_, ?_⟩, ?_⟩
  · obtain ⟨hdvd, hoff, hin⟩ := hs.within h hf
    exact ⟨f.ty.extent, f.ty.grain, (h f hf).size, (h f hf).align, hdvd, hoff, hin.trans hleast.1.2,
      Int.natCast_dvd_natCast.2 (dvd_of_le_of_dvd_eight (h f hf).grain_dvd hgrain (grain_le_grainAll hf))⟩
  · cases fs with
    | nil => cases hf
    | cons g fs =>
      obtain rfl := Option.some.inj hf
      rw [hs.1, roundUp, Nat.zero_add, Nat.div_eq_of_lt (Nat.sub_lt (h g List.mem_cons_self).pos Nat.one_pos)]
      simp
  · obtain rfl : sf = f.ty.extent := Except.ok.inj (hsf.symm.trans (h f (List.mem_of_getElem? hf)).size)
    obtain rfl : ag = g.ty.grain := Except.ok.inj (hag.symm.trans (h g (List.mem_of_getElem? hg)).align)
    exact hs.next h hf hg
  · exact Int.natCast_nonneg _
  · exact hleast.1.1
  · intro f hf sf hsf
    obtain rfl : sf = f.ty.extent := Except.ok.inj (hsf.symm.trans (h f hf).size)
    exact (hs.within h hf).2.2.trans hleast.1.2
  · rintro k ⟨hk, hdvd, hends⟩
    exact hleast.2 ⟨hdvd, hs.endFrom_le hk fun f hf => hends f hf _ (h f hf).size⟩

theorem Built.field (h : Built (.struct fs)) (hf : f ∈ fs) : Built f.ty := by
  cases h with
  | struct hfields hof =>
    obtain ⟨fs', hp, heq⟩ := ofFields_ok hof
    obtain rfl := Ty.struct.inj heq
    exact hfields _ (ty_of_placeFields hp hf)

theorem exists_placeFields (h : ∀ f ∈ fields, f.2.Sound) (off : Int) :
    ∃ fs, placeFields off fields = .ok fs := by
  induction fields generalizing off with
  | nil => exact ⟨[], rfl⟩
  | cons f fields ih =>
    rw [List.forall_mem_cons] at h
    obtain ⟨fs, hp⟩ := ih h.2 (wrapSize (alignUp off f.2.grain + f.2.extent))
    refine ⟨⟨f.1, alignUp off f.2.grain, f.2⟩ :: fs, ?_⟩
    rw [placeFields, h.1.align, h.1.size]
    dsimp only
    rw [hp]
    rfl

/-- Layouts are sound. Fields of types that are built from scalars, arrays and structs can be laid out. A type
that is built so has a size and an alignment, unless a size reaches `2 ^ 63`: the alignment is positive, and
the size is a multiple of it. The fields of a struct stand in order at the first places that their alignments
allow, the struct is the shortest that holds them, and the elements of every array of the type are aligned. -/
theorem layout_sound :
    (∀ fields : List (String × Ty), (∀ f ∈ fields, Built f.2 ∧ f.2.Fits) → ∃ t, ofFields fields = .ok t ∧ Built t) ∧
    ∀ t : Ty, Built t → t.Fits → ∃ s a : Int, t.size = .ok s ∧ t.align = .ok a ∧ 1 ≤ a ∧ 0 ≤ s ∧ a ∣ s ∧
      (∀ fields, ofFields fields = .ok t → ∃ fs, t = .struct fs ∧
        fs.map (fun f => (f.name, f.ty)) = fields ∧ LaidOut fs s a) ∧
      ∀ n i : Int, (Ty.array t n).align = .ok a ∧ a ∣ i * s := by
  refine ⟨fun fields h => ?_, fun t h hf => ?_⟩
  · obtain ⟨fs, hp⟩ := exists_placeFields (fun f hf => (h f hf).1.sound (h f hf).2) 0
    have hof : ofFields fields = .ok (.struct fs) := by rw [ofFields, hp]; rfl
    exact ⟨.struct fs, hof, .struct (fun f hf => (h f hf).1) hof⟩
  · have hsound := h.sound hf
    refine ⟨t.extent, t.grain, hsound.size, hsound.align, Int.ofNat_le.2 hsound.pos, Int.natCast_nonneg _,
      Int.natCast_dvd_natCast.2 hsound.dvd_extent, fun fields hof => ?_, fun n i => ⟨hsound.align, ?_⟩⟩
    · obtain ⟨fs, hp, rfl⟩ := ofFields_ok hof
      have hfields : ∀ f ∈ fs, f.ty.Sound := fun f hmem => (h.field hmem).sound (fits_of_fitsAll hf.1 hmem)
      have hs := stacked_of_placeFields hp hfields (endFrom_lt hfields hf.2)
      exact ⟨fs, rfl, names_of_placeFields hp, laidOut_struct hfields hs⟩
    · exact (Int.natCast_dvd_natCast.2 hsound.dvd_extent).mul_left i

/-- A number of 16 bits and a flag. -/
def pair : Ty :=
  .struct [⟨"n", 0, .int 16 true⟩, ⟨"b", 2, .bool⟩]

/-- A flag, three pairs, nothing at all, and a number of 32 bits. -/
def mixed : List (String × Ty) :=
  [("flag", .bool), ("pairs", .array pair 3), ("none", .array (.ptr .void) 0), ("last", .int 32 false)]

/-- The fields with the places they get. -/
def mixedFields : List (Field Ty) :=
  [⟨"flag", 0, .bool⟩, ⟨"pairs", 2, .array pair 3⟩, ⟨"none", 16, .array (.ptr .void) 0⟩, ⟨"last", 16, .int 32 false⟩]

/-- The pairs take up four bytes each from byte 2 on, and the empty array moves the last field to byte 16. -/
theorem layout_sound_mixed : ofFields mixed = .ok (.struct mixedFields) ∧ (struct mixedFields).size = .ok 24 ∧
    (struct mixedFields).align = .ok 8 ∧ LaidOut mixedFields 24 8 := by
  have hpair : Built pair := by
    refine @Built.struct [("n", .int 16 true), ("b", .bool)] _ (fun f hf => ?_) rfl
    simp only [List.mem_cons, List.not_mem_nil, or_false] at hf
    obtain rfl | rfl := hf
    · exact .int .w16 true
    · exact .bool
  have hpairs : (Ty.array pair 3).Fits := ⟨⟨⟨trivial, trivial, trivial⟩, by decide⟩, by decide⟩
  have hnone : (Ty.array (.ptr .void) 0).Fits := ⟨trivial, by decide⟩
  have hmixed : ofFields mixed = .ok (.struct mixedFields) := rfl
  obtain ⟨t, hof, hbuilt⟩ := layout_sound.1 mixed (by
    intro f hf
    simp only [mixed, List.mem_cons, List.not_mem_nil, or_false] at hf
    obtain rfl | rfl | rfl | rfl := hf
    · exact ⟨.bool, trivial⟩
    · exact ⟨.array 3 hpair, hpairs⟩
    · exact ⟨.array 0 (.ptr .void), hnone⟩
    · exact ⟨.int .w32 false, trivial⟩)
  obtain rfl : .struct mixedFields = t := Except.ok.inj (hmixed.symm.trans hof)
  have hfits : (struct mixedFields).Fits := ⟨⟨trivial, hpairs, hnone, trivial, trivial⟩, by decide⟩
  obtain ⟨s, a, hs, ha, -, -, -, hlaid, -⟩ := layout_sound.2 _ hbuilt hfits
  obtain ⟨fs, hfs, -, hlaid⟩ := hlaid mixed hof
  obtain rfl := Ty.struct.inj hfs
  obtain rfl : 24 = s := Except.ok.inj hs
  obtain rfl : 8 = a := Except.ok.inj ha
  exact ⟨hmixed, hs, ha, hlaid⟩

end Codesmith.Ty
