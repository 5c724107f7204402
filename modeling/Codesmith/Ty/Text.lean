import Codesmith.Fault
import Codesmith.Ty.Basic

/-!
# The text of types

A type has a text of its own unless it is absent or has an absent part where a type is required; asking for
such a text is a fault. Messages and listings show every type: an absent type as `<nil>`, and a type
without a text by the fault.
-/

namespace Codesmith.Ty

/-- What is shown of a type, given its text. -/
def present : Except Fault String → String
  | .ok s => s
  | .error f => "%!v(PANIC=String method: " ++ f.message ++ ")"

mutual

def text : Ty → Except Fault String
  | void => .error .invalidAddress
  | bool => .ok "bool"
  | int bits signed => .ok ((if signed then "i" else "u") ++ toString bits)
  | ptr void => .ok "*?"
  | ptr elem => (text elem).map ("*" ++ ·)
  | array void n => .ok ("[" ++ toString n ++ "]<nil>")
  | array elem n => .ok ("[" ++ toString n ++ "]" ++ present (text elem))
  | struct fields => .ok ("struct\x7b" ++ Text.joinWith "; " (fieldTexts fields) ++ "\x7d")
  | func params result =>
    match texts params with
    | .error f => .error f
    | .ok ps =>
      let head := "func(" ++ Text.joinWith ", " ps ++ ")"
      match result with
      | void => .ok head
      | result => (text result).map (head ++ " " ++ ·)

/-- The fields of a struct, name before type. -/
def fieldTexts : List (Field Ty) → List String
  | [] => []
  | ⟨name, _, void⟩ :: fs => (name ++ " <nil>") :: fieldTexts fs
  | ⟨name, _, ty⟩ :: fs => (name ++ " " ++ present (text ty)) :: fieldTexts fs

def texts : List Ty → Except Fault (List String)
  | [] => .ok []
  | t :: ts =>
    match text t, texts ts with
    | .ok s, .ok ss => .ok (s :: ss)
    | .error f, _ => .error f
    | _, .error f => .error f

end

/-- The type as messages and listings show it. -/
def shown : Ty → String
  | void => "<nil>"
  | t => present t.text

end Codesmith.Ty
