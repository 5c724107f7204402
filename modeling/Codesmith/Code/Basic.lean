import Codesmith.Gen.Program

/-!
# Described functions that are finished

Finished code knows the name and the signature it was described with. Its profile is a map of the
code: a line for each range that is not empty, with start and size in hexadecimal.
-/

namespace Codesmith

/-- A finished function. -/
structure Code where
  name : String
  sig : Signature
  backend : Gen.Backend
  program : Gen.Program
  deriving Repr

namespace Code

def profileLine (c : Code) (s : Gen.Symbol) : String :=
  let place := match s.position with
    | none => ""
    | some p => "@" ++ p.text
  let text := if s.text = "" then "" else " [" ++ s.text ++ "]"
  Text.hex s.start ++ " " ++ Text.hex s.size ++ " meta." ++ c.name ++ "." ++ s.name ++ place ++
    text ++ "\n"

def profile (c : Code) : String :=
  String.join ((c.program.symbols.filter fun s => s.size != 0).map c.profileLine)

def run (c : Code) (fuel : Nat) (args : Array Word) (m : Memory) : Outcome Word :=
  c.program.run fuel args m

end Code

end Codesmith
