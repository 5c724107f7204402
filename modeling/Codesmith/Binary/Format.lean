import Codesmith.Word.Kind

/-!
# Binary numbers with a fraction

A binary number is a natural mantissa times a power of two, with a sign; beside these there are two
infinities and one value that is no number. A format says how many bits mantissas have and which powers
of two occur. `Format.decode` reads the bits of a format.
-/

namespace Codesmith

inductive Binary
  /-- No number at all. -/
  | nan
  | infinite (negative : Bool)
  /-- The number `mantissa · 2 ^ exponent`; zero has a sign too. -/
  | finite (negative : Bool) (mantissa : Nat) (exponent : Int)
  deriving DecidableEq, Repr, Inhabited

namespace Binary

/-- A format of binary numbers. -/
structure Format where
  /-- The bits of a mantissa, counted from its first one. -/
  precision : Nat
  /-- The bits in which the exponent is encoded. -/
  exponentBits : Nat
  deriving DecidableEq, Repr

namespace Format

/-- Numbers of 64 bits. -/
def double : Format := ⟨53, 11⟩

/-- Numbers of 32 bits. -/
def single : Format := ⟨24, 8⟩

def ofWidth : Width → Format
  | .w64 => double
  | _ => single

/-- The encoded exponent of numbers from one up to two. -/
def bias (f : Format) : Nat :=
  (1 <<< (f.exponentBits - 1)) - 1

/-- The least exponent, which numbers near zero share. -/
def leastExponent (f : Format) : Int :=
  2 - (f.bias : Int) - f.precision

def greatestExponent (f : Format) : Int :=
  (f.bias : Int) + 1 - f.precision

/-- The number that bits encode. -/
def decode (f : Format) (bits : Nat) : Binary :=
  let places := f.precision - 1
  let unit := 1 <<< places
  let limit := 1 <<< f.exponentBits
  let fraction := bits % unit
  let exponent := (bits >>> places) % limit
  let negative := bits.testBit (places + f.exponentBits)
  if exponent = limit - 1 then if fraction = 0 then .infinite negative else .nan
  else if exponent = 0 then .finite negative fraction f.leastExponent
  else .finite negative (unit + fraction) (f.leastExponent + exponent - 1)

end Format

end Binary

end Codesmith
