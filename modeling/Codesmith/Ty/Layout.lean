import Codesmith.Fault
import Codesmith.Ty.Basic

/-!
# Sizes and alignments

Every type but the absent one has a size and an alignment in bytes. A struct lays out its fields in
order, each at the next multiple of its alignment, and is rounded up to a multiple of its own
alignment. Sizes are signed numbers of 64 bits and wrap at that width.
-/

namespace Codesmith.Ty

/-- Numbers of bytes wrap like signed words. -/
def wrapSize (n : Int) : Int :=
  n.bmod 18446744073709551616

/-- The least multiple of `a` that is not below `n`, for a positive `a`. -/
def alignUp (n a : Int) : Int :=
  if a ≤ 1 then n else wrapSize ((wrapSize (n + a - 1)).tdiv a * a)

mutual

def align : Ty → Except Fault Int
  | void => .error .invalidAddress
  | bool => .ok 1
  | int bits _ => .ok (bits.tdiv 8)
  | ptr _ => .ok 8
  | array elem _ => align elem
  | struct fields => alignFields 1 fields
  | func _ _ => .ok 8

/-- The greatest of `a` and the alignments of the fields. -/
def alignFields (a : Int) : List (Field Ty) → Except Fault Int
  | [] => .ok a
  | ⟨_, _, ty⟩ :: fs =>
    match align ty with
    | .error f => .error f
    | .ok b => alignFields (max a b) fs

end

mutual

def size : Ty → Except Fault Int
  | void => .error .invalidAddress
  | bool => .ok 1
  | int bits _ => .ok (bits.tdiv 8)
  | ptr _ => .ok 8
  | array elem n => (size elem).map fun s => wrapSize (s * n)
  | struct fields =>
    match endOfFields 0 fields, alignFields 1 fields with
    | .ok e, .ok a => .ok (alignUp e a)
    | .error f, _ => .error f
    | _, .error f => .error f
  | func _ _ => .ok 8

/-- The end of the last field, or `e` if there is none. -/
def endOfFields (e : Int) : List (Field Ty) → Except Fault Int
  | [] => .ok e
  | ⟨_, offset, ty⟩ :: fs =>
    match size ty with
    | .error f => .error f
    | .ok s => endOfFields (wrapSize (offset + s)) fs

end

/-- The fields placed in order from the offset `off` on. -/
def placeFields (off : Int) : List (String × Ty) → Except Fault (List (Field Ty))
  | [] => .ok []
  | (name, ty) :: rest =>
    match align ty, size ty with
    | .ok a, .ok s =>
      let start := alignUp off a
      (placeFields (wrapSize (start + s)) rest).map (⟨name, start, ty⟩ :: ·)
    | .error f, _ => .error f
    | _, .error f => .error f

/-- The struct with the given fields in order. -/
def ofFields (fields : List (String × Ty)) : Except Fault Ty :=
  (placeFields 0 fields).map struct

end Codesmith.Ty
