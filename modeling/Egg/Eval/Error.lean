import Egg.SpecialForm
import Egg.Value.Printer

/-!
# Evaluation errors

Every error ends the whole program. Its message describes the value at fault as it was when the
error arose.
-/

namespace Egg

/-- The broad kinds of failures. -/
inductive ErrorKind where
  /-- The source text, or the shape of a special form, is wrong. -/
  | shape
  /-- A name is not bound. -/
  | reference
  /-- A value has the wrong kind, or the number of arguments is wrong. -/
  | kind
  /-- An index lies outside of its array. -/
  | bounds
deriving DecidableEq

/-- The name of a kind of failures. -/
def ErrorKind.label : ErrorKind → String
  | shape => "Syntax"
  | reference => "Reference"
  | kind => "Type"
  | bounds => "Bounds"

/-- What a native function demands of an argument. -/
inductive Demand where
  /-- The argument must be a number. -/
  | number
  /-- The argument must be an array. -/
  | array
deriving DecidableEq

/-- The wording of a demand. -/
def Demand.wording : Demand → String
  | number => "a number"
  | array => "an array"

/-- Why an evaluation fails. -/
inductive EvalError where
  /-- The arguments of a special form have the wrong shape. -/
  | badSpecialForm (form : SpecialForm) (misuse : Misuse)
  /-- A variable is read that no scope owns. -/
  | undefinedVariable (name : Name)
  /-- A variable is changed that no scope owns. -/
  | unknownVariable (name : Name)
  /-- A value is applied that is no function. -/
  | notCallable (found : String)
  /-- A function is applied to the wrong number of arguments. -/
  | arityMismatch (callee : String) (expected got : Nat)
  /-- A native function is applied to a value of the wrong kind. -/
  | typeMismatch (operation : Builtin) (expected : Demand) (found : String)
  /-- An index is not that of an item. -/
  | indexOutOfBounds (index : String) (length : Nat)
deriving DecidableEq

namespace EvalError

/-- The kind of an error. -/
def kind : EvalError → ErrorKind
  | badSpecialForm _ _ => .shape
  | undefinedVariable _ => .reference
  | unknownVariable _ => .reference
  | notCallable _ => .kind
  | arityMismatch _ _ _ => .kind
  | typeMismatch _ _ _ => .kind
  | indexOutOfBounds _ _ => .bounds

/-- The wording of an error. -/
def message : EvalError → String
  | badSpecialForm form misuse => "bad use of `" ++ form.name ++ "`: " ++ misuse.reason
  | undefinedVariable name => "undefined variable: " ++ name
  | unknownVariable name => "setting unknown variable: " ++ name
  | notCallable found => "applying a non-function: " ++ found
  | arityMismatch callee expected got =>
    callee ++ " expects " ++ expected.repr ++ " argument(s), got " ++ got.repr
  | typeMismatch operation expected found =>
    "`" ++ operation.name ++ "` expects " ++ expected.wording ++ ", got " ++ found
  | indexOutOfBounds index length =>
    "index " ++ index ++ " out of bounds for array of length " ++ length.repr

/-- The name of the reason. -/
def label : EvalError → String
  | badSpecialForm _ _ => "BadSpecialForm"
  | undefinedVariable _ => "UndefinedVariable"
  | unknownVariable _ => "UnknownVariable"
  | notCallable _ => "NotCallable"
  | arityMismatch _ _ _ => "ArityMismatch"
  | typeMismatch _ _ _ => "TypeMismatch"
  | indexOutOfBounds _ _ => "IndexOutOfBounds"

end EvalError

end Egg
