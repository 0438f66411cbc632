import Egg.Name
import Egg.Number.Basic

/-!
# Expressions

A program is one expression. There are three kinds of leaves, and one kind of node: the application
of an operator, itself an expression, to a list of arguments. Control flow, definitions and
functions are applications too, of operators that are given a meaning when they are evaluated.
-/

namespace Egg

/-- A syntax tree. -/
inductive Expr where
  /-- A number literal. -/
  | number (n : Number)
  /-- A text literal. -/
  | text (s : String)
  /-- A reference to a variable. -/
  | word (name : Name)
  /-- The application of an operator to arguments. -/
  | apply (operator : Expr) (args : List Expr)
deriving Inhabited

namespace Expr

/-- The name of an expression that is a word. -/
def asWord? : Expr → Option Name
  | word name => some name
  | _ => none

mutual

/-- Equality of trees, with their numbers compared as values: a tree that contains what is not a
number does not equal itself, and the two zeros are not told apart. -/
protected def beq : Expr → Expr → Bool
  | number a, number b => a == b
  | text a, text b => a == b
  | word a, word b => a == b
  | apply f as, apply g bs => f.beq g && beqList as bs
  | _, _ => false

/-- Equality of lists of trees, item by item. -/
def beqList : List Expr → List Expr → Bool
  | [], [] => true
  | a :: as, b :: bs => a.beq b && beqList as bs
  | _, _ => false

end

instance : BEq Expr := ⟨Expr.beq⟩

end Expr

end Egg
