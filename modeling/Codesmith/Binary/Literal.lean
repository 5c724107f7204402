import Codesmith.Binary.Nearest

/-!
# Literals of numbers

A number is written with decimal digits, a point and an exponent of ten, or with `0x`, digits in base
sixteen, a point and an exponent of two, which then is required. An underscore may stand between two
digits and behind `0x`. Infinity and the value that is no number are written by name, in any case.
-/

namespace Codesmith.Binary

/-- What a literal denotes: a value by name, or `digits · base ^ exponent`. -/
inductive Literal
  | named (value : Binary)
  | decimal (negative : Bool) (digits : Nat) (exponent : Int)
  | hexadecimal (negative : Bool) (digits : Nat) (exponent : Int)
  deriving DecidableEq, Repr

namespace Literal

/-- The value of a digit in base sixteen. -/
def digit? (c : Char) : Option Nat :=
  if '0' ≤ c ∧ c ≤ '9' then some (c.toNat - '0'.toNat)
  else
    let l := c.toLower
    if 'a' ≤ l ∧ l ≤ 'f' then some (l.toNat - 'a'.toNat + 10) else none

def isDigit (base : Nat) (c : Char) : Bool :=
  match digit? c with
  | some d => d < base
  | none => false

def number (base : Nat) (cs : List Char) : Nat :=
  cs.foldl (fun n c => n * base + (digit? c).getD 0) 0

/-- A sign, if there is one, and what follows it. -/
def signed : List Char → Option Bool × List Char
  | '-' :: cs => (some true, cs)
  | '+' :: cs => (some false, cs)
  | cs => (none, cs)

/-- What follows `0x`, if something does. -/
def hexBody? : List Char → Option (List Char)
  | '0' :: x :: c :: cs => if x.toLower = 'x' then some (c :: cs) else none
  | _ => none

/-- Whether underscores stand only between digits, where `digitBefore` tells what came last. -/
def spaced (base : Nat) : Bool → List Char → Bool
  | _, [] => true
  | digitBefore, '_' :: cs =>
    digitBefore && (match cs with
      | c :: _ => isDigit base c
      | [] => false) && spaced base false cs
  | _, c :: cs => spaced base (isDigit base c) cs

/-- Whether the underscores of a literal without its sign stand where they may. -/
def underscoresFit (cs : List Char) : Bool :=
  match hexBody? cs with
  | some body => spaced 16 true body
  | none => spaced 10 false cs

/-- The exponent behind its mark. -/
def exponent? (cs : List Char) : Option Int :=
  let (sign, ds) := signed cs
  if ds.isEmpty || !ds.all (isDigit 10) then none
  else
    let n : Int := number 10 ds
    some (if sign = some true then -n else n)

/-- The digits of a number in a base with the count of those behind the point, and the exponent, which
may be left out where it is optional. -/
def body? (base : Nat) (mark : Char) (optional : Bool) (cs : List Char) : Option (Nat × Nat × Int) :=
  let whole := cs.takeWhile (isDigit base)
  let rest := cs.dropWhile (isDigit base)
  let (fraction, rest) := match rest with
    | '.' :: ds => (ds.takeWhile (isDigit base), ds.dropWhile (isDigit base))
    | ds => ([], ds)
  if whole.isEmpty && fraction.isEmpty then none
  else
    let digits := number base (whole ++ fraction)
    match rest with
    | [] => if optional then some (digits, fraction.length, 0) else none
    | c :: ds => if c.toLower = mark then (exponent? ds).map fun e => (digits, fraction.length, e) else none

def read? (s : String) : Option Literal :=
  let (sign, cs) := signed s.toList
  let negative := sign = some true
  let name := String.ofList (cs.map Char.toLower)
  if name = "inf" ∨ name = "infinity" then some (.named (.infinite negative))
  else if name = "nan" ∧ sign = none then some (.named .nan)
  else if !underscoresFit cs then none
  else
    let cs := cs.filter (· != '_')
    match hexBody? cs with
    | some body => (body? 16 'p' false body).map fun (digits, places, e) =>
        .hexadecimal negative digits (e - 4 * places)
    | none => (body? 10 'e' true cs).map fun (digits, places, e) =>
        .decimal negative digits (e - places)

/-- From this power of the base on numbers are infinite in every format, and below its inverse they are
zero. -/
def reach : Int := 2000

def value (f : Format) : Literal → Binary
  | .named x => x
  | .decimal negative digits e =>
    let bits := digits.log2
    if digits = 0 ∨ (bits / 3 + 1 : Nat) + e < -reach then .finite negative 0 f.leastExponent
    else if reach ≤ (bits * 3 / 10 : Nat) + e then .infinite negative
    else if 0 ≤ e then nearest f negative (digits * Nat.pow 10 e.toNat) 1
    else nearest f negative digits (Nat.pow 10 (-e).toNat)
  | .hexadecimal negative digits e =>
    let lead := (digits.log2 : Int) + e
    if digits = 0 ∨ lead + 1 < -reach then .finite negative 0 f.leastExponent
    else if reach ≤ lead then .infinite negative
    else
      let (n, d) := scaleBy digits 1 e
      nearest f negative n d

end Literal

/-- The number of a format that a text denotes; a text that is no literal counts as zero. -/
def ofText (f : Format) (s : String) : Binary :=
  ((Literal.read? s).map (Literal.value f)).getD (.finite false 0 f.leastExponent)

end Codesmith.Binary
