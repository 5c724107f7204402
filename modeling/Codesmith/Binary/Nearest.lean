import Codesmith.Binary.Format

/-!
# The nearest number of a format

A positive ratio is rounded to the nearest number of a format, and a ratio halfway between two numbers to
the one with the even mantissa. Ratios beyond the greatest number become infinite.
-/

namespace Codesmith.Binary

/-- The ratio `n / d` times a power of two, again as a ratio. -/
def scaleBy (n d : Nat) (e : Int) : Nat × Nat :=
  if 0 ≤ e then (n <<< e.toNat, d) else (n, d <<< (-e).toNat)

/-- The greatest power of two that is not above the positive ratio `n / d`. -/
def leadingExponent (n d : Nat) : Int :=
  let guess : Int := (n.log2 : Int) - d.log2
  let (a, b) := scaleBy n d (-guess)
  if b ≤ a then guess else guess - 1

/-- The natural number nearest to `n / d`; halfway it is the even one. -/
def roundHalfEven (n d : Nat) : Nat :=
  let q := n / d
  let r := n % d
  if d < 2 * r ∨ (d = 2 * r ∧ q % 2 = 1) then q + 1 else q

/-- The number of a format that is nearest to the ratio `n / d`. -/
def nearest (f : Format) (negative : Bool) (n d : Nat) : Binary :=
  if n = 0 then .finite negative 0 f.leastExponent
  else
    let e := max f.leastExponent (leadingExponent n d + 1 - f.precision)
    let (a, b) := scaleBy n d (-e)
    let m := roundHalfEven a b
    let (m, e) := if m = 1 <<< f.precision then (m / 2, e + 1) else (m, e)
    if f.greatestExponent < e then .infinite negative else .finite negative m e

/-- The number of a format that is nearest to a number. -/
def narrow (f : Format) : Binary → Binary
  | .finite negative m e =>
    let (n, d) := scaleBy m 1 e
    nearest f negative n d
  | x => x

end Codesmith.Binary
