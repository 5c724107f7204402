/-!
# Fixed-width and positional text

Listings line their columns up and print words in base sixteen. The functions here build such text
from strings and numbers, with no alignment rule of any particular listing.
-/

namespace Codesmith.Text

/-- `s` followed by blanks up to `width` characters; longer text is kept whole. -/
def padRight (width : Nat) (s : String) : String :=
  s ++ String.ofList (List.replicate (width - s.length) ' ')

/-- The digits of `n` in base sixteen, lower case, at least one. -/
def hex (n : Nat) : String :=
  String.ofList (Nat.toDigits 16 n)

/-- A number in base sixteen with its base marked. -/
def hexMarked (n : Nat) : String :=
  "0x" ++ hex n

/-- Exactly `width` digits of `n` in base sixteen, padded with zeros on the left. -/
def hexPadded (width n : Nat) : String :=
  let digits := Nat.toDigits 16 n
  String.ofList (List.replicate (width - digits.length) '0' ++ digits)

/-- The bytes as pairs of digits in base sixteen. -/
def hexBytes (bytes : List UInt8) : String :=
  String.join (bytes.map fun b => hexPadded 2 b.toNat)

/-- The texts one after another with `sep` between two of them. -/
def joinWith (sep : String) (parts : List String) : String :=
  sep.intercalate parts

end Codesmith.Text
