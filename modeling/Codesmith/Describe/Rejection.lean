import Codesmith.Describe.Value
import Codesmith.Position

/-!
# Rejected calls

A call that breaks a rule of the description is rejected. Types that do not fit together, values used
outside of their scope and use of a finished function are told apart from other mistakes.
-/

namespace Codesmith.Describe

/-- Why a call of a description was rejected. -/
inductive Rejection
  /-- Types that do not fit. The right type is absent if one type alone is unfit; the constant is
  given if it was to fit the left type. -/
  | typeMismatch (op : String) (left right : Ty) (const : Option Operand) (position : Position)
  | useAfterFinalize (op : String) (position : Position)
  | outOfScope (op : String) (defined position : Position)
  | noArgument (n : Int) (sig : Signature)
  | missingValue (op : String)
  | foreignValue (op owner func : String)
  | invalidValue (op : String)
  | breakOutside (position : Position)
  | continueOutside (position : Position)
  | voidResult (func : String) (position : Position)
  deriving Repr

namespace Rejection

/-- A type that is unfit by itself. -/
def unsupported (op : String) (t : Ty) (position : Position) : Rejection :=
  .typeMismatch op t .void none position

/-- A constant that does not fit a type. -/
def badConstant (op : String) (t : Ty) (x : Operand) (position : Position) : Rejection :=
  .typeMismatch op t .void (if x.isNothing then none else some x) position

/-- Whether a finished function was used. -/
def isUseAfterFinalize : Rejection → Bool
  | useAfterFinalize .. => true
  | _ => false

/-- The wording of a rejection; the memory is that of the constants. -/
def message (m : Memory) : Rejection → String
  | typeMismatch op left right const position =>
    let what := match const, right with
      | some x, _ => "constant " ++ x.shown m ++ " does not fit " ++ left.shown
      | none, .void => "unsupported type " ++ left.shown
      | none, right => "type mismatch: " ++ left.shown ++ " and " ++ right.shown
    "meta: " ++ op ++ ": " ++ what ++ atPosition (some position)
  | useAfterFinalize op position =>
    "meta: " ++ op ++ ": function is finalized" ++ atPosition (some position)
  | outOfScope op defined position =>
    "meta: " ++ op ++ ": value used outside its scope (defined at " ++ defined.text ++ ")" ++
      atPosition (some position)
  | noArgument n sig => "no argument " ++ toString n ++ " in " ++ sig.ty.shown
  | missingValue op => op ++ ": nil value"
  | foreignValue op owner func =>
    op ++ ": value of function " ++ owner ++ " used in " ++ func
  | invalidValue op => op ++ ": invalid value"
  | breakOutside position => "break outside of a loop" ++ atPosition (some position)
  | continueOutside position => "continue outside of a loop" ++ atPosition (some position)
  | voidResult func position =>
    "return: value returned from void function " ++ func ++ atPosition (some position)

end Rejection

end Codesmith.Describe
