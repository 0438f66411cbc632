/-!
# Native functions

The functions that every program finds in its outermost scope. What they do is defined with the
evaluator; here are their names and how many arguments they take.
-/

namespace Egg

/-- How many arguments a function takes. -/
inductive Arity where
  /-- The given number. -/
  | exact (n : Nat)
  /-- Any number. -/
  | variadic
deriving DecidableEq

/-- The least number of arguments. -/
def Arity.least : Arity → Nat
  | exact n => n
  | variadic => 0

/-- A native function. -/
inductive Builtin where
  /-- The sum of two numbers. -/
  | add
  /-- The difference of two numbers. -/
  | sub
  /-- The product of two numbers. -/
  | mul
  /-- The quotient of two numbers. -/
  | div
  /-- Whether two values are the same. -/
  | eq
  /-- Whether the first of two numbers is below the second. -/
  | lt
  /-- Whether the first of two numbers is above the second. -/
  | gt
  /-- Prints a value. -/
  | print
  /-- A new array of the given items. -/
  | array
  /-- The number of items of an array. -/
  | length
  /-- The item of an array at an index. -/
  | element
deriving DecidableEq

namespace Builtin

/-- All native functions, in the order in which they are installed. -/
def all : List Builtin :=
  [add, sub, mul, div, eq, lt, gt, print, array, length, element]

/-- The variable that holds the function. -/
def name : Builtin → String
  | add => "+"
  | sub => "-"
  | mul => "*"
  | div => "/"
  | eq => "=="
  | lt => "<"
  | gt => ">"
  | print => "print"
  | array => "array"
  | length => "length"
  | element => "element"

/-- The name of the function in dumps. -/
def label : Builtin → String
  | add => "Add"
  | sub => "Sub"
  | mul => "Mul"
  | div => "Div"
  | eq => "Eq"
  | lt => "Lt"
  | gt => "Gt"
  | print => "Print"
  | array => "Array"
  | length => "Length"
  | element => "Element"

/-- How many arguments the function takes. -/
def arity : Builtin → Arity
  | print | length => .exact 1
  | array => .variadic
  | _ => .exact 2

end Builtin

end Egg
