import Codesmith.Text.Printable
import Codesmith.Text.Layout

/-!
# Quoted text

Messages show text between double quotes. Quotes, backslashes and control characters are escaped,
and so is every character that is not printable.
-/

namespace Codesmith.Text

/-- The escape of a character that stands for itself neither plainly nor by a short escape. -/
def escapeCode (c : Char) : String :=
  let n := c.toNat
  if n < 0x80 then "\\x" ++ hexPadded 2 n
  else if n < 0x10000 then "\\u" ++ hexPadded 4 n
  else "\\U" ++ hexPadded 8 n

def quoteChar (c : Char) : String :=
  if c = '"' then "\\\""
  else if c = '\\' then "\\\\"
  else if isPrintable c then c.toString
  else match c.toNat with
    | 7 => "\\a"
    | 8 => "\\b"
    | 9 => "\\t"
    | 10 => "\\n"
    | 11 => "\\v"
    | 12 => "\\f"
    | 13 => "\\r"
    | _ => escapeCode c

/-- The text between quotes. -/
def quote (s : String) : String :=
  "\"" ++ String.join (s.toList.map quoteChar) ++ "\""

end Codesmith.Text
