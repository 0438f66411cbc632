import Egg.Expr.Basic

/-!
# Special forms

An application whose operator is one of six words is a special form, whatever these words are bound
to. A special form sees its arguments unevaluated, and first of all they must have the right shape.
-/

namespace Egg

/-- The six words with a meaning of their own. -/
inductive SpecialForm where
  /-- `if`: a choice between two expressions. -/
  | choice
  /-- `while`: repetition. -/
  | loop
  /-- `do`: one expression after the other. -/
  | sequence
  /-- `define`: binds a name in the current scope. -/
  | define
  /-- `set`: changes a binding that exists. -/
  | assign
  /-- `fun`: makes a function. -/
  | function
deriving DecidableEq

/-- How the arguments of a special form can have the wrong shape. -/
inductive Misuse where
  /-- Their number is not the given one. -/
  | argumentCount (expected : Nat)
  /-- The first of them should be a name, and is not. -/
  | targetNotWord
  /-- A function has no body. -/
  | missingBody
  /-- A parameter of a function is not a name. -/
  | parameterNotWord
deriving DecidableEq

/-- The wording of a misuse. -/
def Misuse.reason : Misuse → String
  | argumentCount n => "expected " ++ n.repr ++ " arguments"
  | targetNotWord => "expected a word as the first argument"
  | missingBody => "missing function body"
  | parameterNotWord => "parameter names must be words"

/-- A special form with arguments of the right shape. -/
inductive Form where
  /-- Evaluate one of two expressions, as the condition says. -/
  | choice (condition yes no : Expr)
  /-- Evaluate the body as long as the condition holds. -/
  | loop (condition body : Expr)
  /-- Evaluate all, and give the last value. -/
  | sequence (items : List Expr)
  /-- Bind a name in the current scope. -/
  | define (name : Name) (value : Expr)
  /-- Change the nearest binding of a name. -/
  | assign (name : Name) (value : Expr)
  /-- Make a function. -/
  | function (params : List Name) (body : Expr)

namespace SpecialForm

/-- The special form that a word stands for. -/
def ofName? (name : String) : Option SpecialForm :=
  if name = "if" then some choice
  else if name = "while" then some loop
  else if name = "do" then some sequence
  else if name = "define" then some define
  else if name = "set" then some assign
  else if name = "fun" then some function
  else none

/-- The word that stands for a special form. -/
def name : SpecialForm → String
  | choice => "if"
  | loop => "while"
  | sequence => "do"
  | define => "define"
  | assign => "set"
  | function => "fun"

/-- The name of a special form in dumps. -/
def label : SpecialForm → String
  | choice => "If"
  | loop => "While"
  | sequence => "Do"
  | define => "Define"
  | assign => "Set"
  | function => "Fun"

/-- The special form that an operator stands for. -/
def ofOperator? : Expr → Option SpecialForm
  | .word name => ofName? name
  | _ => none

/-- The shape that `define` and `set` share: a name and an expression. -/
def binding : List Expr → Except Misuse (Name × Expr)
  | [.word name, value] => .ok (name, value)
  | [_, _] => .error .targetNotWord
  | _ => .error (.argumentCount 2)

/-- The names that a list of parameters consists of. -/
def parameters : List Expr → Except Misuse (List Name)
  | [] => .ok []
  | .word name :: rest => (parameters rest).map (name :: ·)
  | _ :: _ => .error .parameterNotWord

/-- The shape of a function: parameters, and a body behind them. -/
def functionShape (args : List Expr) : Except Misuse Form :=
  match args.getLast? with
  | none => .error .missingBody
  | some body => (parameters args.dropLast).map (.function · body)

/-- The arguments of a special form in the shape that it demands. -/
def shape : SpecialForm → List Expr → Except Misuse Form
  | choice, [condition, yes, no] => .ok (.choice condition yes no)
  | choice, _ => .error (.argumentCount 3)
  | loop, [condition, body] => .ok (.loop condition body)
  | loop, _ => .error (.argumentCount 2)
  | sequence, items => .ok (.sequence items)
  | define, args => (binding args).map fun (name, value) => .define name value
  | assign, args => (binding args).map fun (name, value) => .assign name value
  | function, args => functionShape args

end SpecialForm

end Egg
