import Egg.Builtin
import Egg.Expr.Basic

/-!
# Values

What expressions evaluate to. Arrays and functions have an identity besides their content: each is
marked when it is made with a tag that no other one bears, and the mark stays with it wherever the
value goes.
-/

namespace Egg

/-- A scope, by its place in the heap. -/
abbrev ScopeId := Nat

/-- The mark that tells arrays and functions apart. -/
abbrev Tag := Nat

/-- A function made by a program. -/
structure Closure where
  /-- The names of the parameters. -/
  params : List Name
  /-- The expression that a call evaluates. -/
  body : Expr
  /-- The scope in which the function was made. -/
  scope : ScopeId

/-- A value of a running program. -/
inductive Value where
  /-- A number. -/
  | number (n : Number)
  /-- A text. -/
  | text (s : String)
  /-- A truth value. -/
  | bool (b : Bool)
  /-- A sequence of values. -/
  | array (tag : Tag) (items : List Value)
  /-- A function made by the program. -/
  | function (tag : Tag) (closure : Closure)
  /-- A native function. -/
  | native (b : Builtin)
deriving Inhabited

namespace Value

/-- Whether a condition with this value holds: only `false` does not. -/
def isTruthy : Value → Bool
  | bool b => b
  | _ => true

/-- Whether the value can be applied to arguments. -/
def isCallable : Value → Bool
  | function _ _ => true
  | native _ => true
  | _ => false

/-- The number inside, if the value is one. -/
def asNumber? : Value → Option Number
  | number n => some n
  | _ => none

/-- Whether two values are the same: numbers, texts and truth values by what they are, arrays and
functions by identity. -/
def strictEq : Value → Value → Bool
  | number a, number b => a == b
  | text a, text b => a == b
  | bool a, bool b => a == b
  | array s _, array t _ => s == t
  | function s _, function t _ => s == t
  | native a, native b => a == b
  | _, _ => false

mutual

/-- Whether two values have the same content. Unlike `strictEq`, arrays are compared item by item.
-/
def structuralEq : Value → Value → Bool
  | array _ as, array _ bs => structuralEqList as bs
  | a, b => strictEq a b

/-- Whether two lists of values have the same content, item by item. -/
def structuralEqList : List Value → List Value → Bool
  | [], [] => true
  | a :: as, b :: bs => structuralEq a b && structuralEqList as bs
  | _, _ => false

end

end Value

end Egg
