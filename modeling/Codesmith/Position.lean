/-!
# Source positions

Generated code remembers which line of the describing program asked for it. A position may be
missing.
-/

namespace Codesmith

/-- A line of a file. -/
structure Position where
  file : String
  line : Int
  deriving DecidableEq, Repr, Inhabited

def Position.text (p : Position) : String :=
  p.file ++ ":" ++ toString p.line

/-- What a message says about a position; nothing for a missing one. -/
def atPosition : Option Position → String
  | none => ""
  | some p => " (at " ++ p.text ++ ")"

end Codesmith
