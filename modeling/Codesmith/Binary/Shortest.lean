import Codesmith.Binary.Nearest
import Codesmith.Text.Decimal

/-!
# The shortest decimal of a binary number

All ratios near a number of a format round to it. They lie between the points halfway to its neighbours,
and these two points belong to them when the mantissa is even. The text of a number is the decimal with
the fewest digits among them, and of several such decimals the nearest to the number.

The search takes one digit more in each round and looks at the two decimals around the number.
-/

namespace Codesmith.Binary

open Text

/-- How many decimal digits a number has; zero has none. -/
def countDigits (n : Nat) : Nat :=
  if n = 0 then 0 else (Nat.toDigits 10 n).length

/-- The least `k` for which the positive ratio `n / d` is below `10 ^ k`. -/
def decimalPoint (n d : Nat) : Int :=
  if d ≤ n then countDigits (n / d) else 1 - (countDigits ((d - 1) / n) : Int)

/-- A number with the ratios that round to it, all over one denominator. -/
structure Interval where
  low : Nat
  value : Nat
  high : Nat
  denominator : Nat
  /-- Whether the ends belong to the interval. -/
  closed : Bool
  deriving Repr

namespace Interval

/-- The ratios that round to the number `m · 2 ^ e` of a format. The neighbour below a power of two is
only half as far away as the one above. -/
def ofFinite (f : Format) (m : Nat) (e : Int) : Interval :=
  let step := if m = 1 <<< (f.precision - 1) ∧ f.leastExponent < e then 1 else 2
  let unit := scaleBy 1 1 (e - 2)
  { low := (4 * m - step) * unit.1
    value := 4 * m * unit.1
    high := (4 * m + 2) * unit.1
    denominator := unit.2
    closed := m % 2 = 0 }

/-- The interval in units of `10 ^ k`. -/
def inUnits (i : Interval) (k : Int) : Interval :=
  if 0 ≤ k then { i with denominator := i.denominator * Nat.pow 10 k.toNat }
  else
    let c := Nat.pow 10 (-k).toNat
    { i with low := i.low * c, value := i.value * c, high := i.high * c }

/-- Whether a natural number lies in the interval. -/
def contains (i : Interval) (n : Nat) : Bool :=
  let x := n * i.denominator
  if i.closed then i.low ≤ x && x ≤ i.high else i.low < x && x < i.high

/-- The natural number of the interval that is nearest to its value, if it holds a neighbour of it. -/
def candidate? (i : Interval) : Option Nat :=
  let below := i.value / i.denominator
  match i.contains below, i.contains (below + 1) with
  | true, true => some (roundHalfEven i.value i.denominator)
  | true, false => some below
  | false, true => some (below + 1)
  | false, false => none

end Interval

/-- The decimal `c · 10 ^ k`. -/
def decimalOf (negative : Bool) (c : Nat) (k : Int) : Decimal :=
  let digits := Nat.toDigits 10 c
  Decimal.normalize ⟨negative, digits, (digits.length : Int) + k⟩

/-- The shortest decimal with `n` digits or more for a number whose decimals start before the place
`point`, searched for in at most so many rounds. -/
def search? (negative : Bool) (i : Interval) (point : Int) : Nat → Nat → Option Decimal
  | 0, _ => none
  | rounds + 1, n =>
    let k := point - n
    match (i.inUnits k).candidate? with
    | some c => some (decimalOf negative c k)
    | none => search? negative i point rounds (n + 1)

/-- The decimal that equals the number `m · 2 ^ e`. -/
def exact (negative : Bool) (m : Nat) (e : Int) : Decimal :=
  if 0 ≤ e then decimalOf negative (m <<< e.toNat) 0
  else decimalOf negative (m * Nat.pow 5 (-e).toNat) e

/-- The shortest decimal that rounds to the number `m · 2 ^ e` of a format. As many digits as mantissas
have bits always suffice. -/
def shortest (f : Format) (negative : Bool) (m : Nat) (e : Int) : Decimal :=
  if m = 0 then ⟨negative, [], 0⟩
  else
    let i := Interval.ofFinite f m e
    (search? negative i (decimalPoint i.value i.denominator) f.precision 1).getD (exact negative m e)

def text (f : Format) : Binary → String
  | .nan => "NaN"
  | .infinite negative => if negative then "-Inf" else "+Inf"
  | .finite negative m e => (shortest f negative m e).text

end Codesmith.Binary
