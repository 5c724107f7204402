import Codesmith.Text.Layout

/-!
# Decimal numbers

A decimal number is a sign, its significant digits and the place of the point. The text of a number
is positional when the point lies near its digits, and has an exponent otherwise.
-/

namespace Codesmith.Text

/-- The number `0.d₁d₂… · 10 ^ point`; zero has no digits. -/
structure Decimal where
  negative : Bool
  digits : List Char
  point : Int
  deriving DecidableEq, Repr

namespace Decimal

/-- The number without zeros at either end of its digits. -/
def normalize (d : Decimal) : Decimal :=
  let lead := d.digits.takeWhile (· == '0')
  let rest := d.digits.dropWhile (· == '0')
  let digits := (rest.reverse.dropWhile (· == '0')).reverse
  { d with digits, point := if digits.isEmpty then 0 else d.point - lead.length }

/-- The digits of an exponent, at least two. -/
def exponentText (e : Int) : String :=
  let digits := toString e.natAbs
  (if e < 0 then "-" else "+") ++ (if digits.length < 2 then "0" ++ digits else digits)

/-- The text of a number: positional for exponents from `-4` to `5`. -/
def text (d : Decimal) : String :=
  let sign := if d.negative then "-" else ""
  let e := d.point - 1
  match d.digits with
  | [] => sign ++ "0"
  | c :: cs =>
    if e < -4 || 6 ≤ e then
      let mantissa := if cs.isEmpty then c.toString else c.toString ++ "." ++ String.ofList cs
      sign ++ mantissa ++ "e" ++ exponentText e
    else if d.point ≤ 0 then
      sign ++ "0." ++ String.ofList (List.replicate (-d.point).toNat '0' ++ d.digits)
    else
      let n := d.point.toNat
      let whole := d.digits.take n ++ List.replicate (n - d.digits.length) '0'
      let frac := d.digits.drop n
      sign ++ String.ofList whole ++ (if frac.isEmpty then "" else "." ++ String.ofList frac)

end Decimal

end Codesmith.Text
