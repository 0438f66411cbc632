import Egg.Syntax.Error
import Egg.Syntax.Lexeme

/-!
# The parser

```text
program     := expression
expression  := leaf argumentList*
argumentList := "(" [ expression ( "," expression )* [ "," ] ] ")"
```

The parser takes one lexeme at a time. Between two lexemes it knows which calls are still open, and
whether it has just completed an expression or waits for one. Nesting is held in the list of open
calls, so its depth is limited by memory only.
-/

namespace Egg.Syntax

/-- A call whose closing parenthesis has not been read. -/
structure OpenCall where
  /-- The operator before the opening parenthesis. -/
  operator : Expr
  /-- The arguments read so far, the last one first. -/
  args : List Expr

namespace OpenCall

/-- The call with one more argument. -/
def addArg (c : OpenCall) (e : Expr) : OpenCall := { c with args := e :: c.args }

/-- The application that results when the call is closed. -/
def close (c : OpenCall) : Expr := .apply c.operator c.args.reverse

end OpenCall

/-- What the parser stands before. -/
inductive Expectation where
  /-- An expression must follow. -/
  | operand
  /-- An argument of the innermost open call follows, or its closing parenthesis. -/
  | argument
  /-- The given expression is complete, unless an argument list follows. -/
  | continuation (e : Expr)

/-- The source at the next lexeme, as messages quote it. -/
def excerptAt : List Lexeme → String
  | [] => excerpt []
  | l :: _ => excerpt l.start

/-- Reads on until an expression is complete that belongs to no open call, and gives it with the
lexemes behind it. -/
def readExpression : Expectation → List OpenCall → List Lexeme →
    Except ParseError (Expr × List Lexeme)
  | .operand, calls, ls =>
    match ls with
    | ⟨.leaf e, _⟩ :: rest => readExpression (.continuation e) calls rest
    | _ => .error (.unexpectedInput (excerptAt ls))
  | .argument, calls, ls =>
    match ls, calls with
    | ⟨.leaf e, _⟩ :: rest, calls => readExpression (.continuation e) calls rest
    | ⟨.closing, _⟩ :: rest, call :: calls =>
      readExpression (.continuation call.close) calls rest
    | _, _ => .error (.unexpectedInput (excerptAt ls))
  | .continuation e, calls, ls =>
    match ls, calls with
    | ⟨.opening, _⟩ :: rest, calls => readExpression .argument (⟨e, []⟩ :: calls) rest
    | _, [] => .ok (e, ls)
    | ⟨.comma, _⟩ :: rest, call :: calls =>
      readExpression .argument (call.addArg e :: calls) rest
    | ⟨.closing, _⟩ :: rest, call :: calls =>
      readExpression (.continuation (call.addArg e).close) calls rest
    | _, _ => .error (.expectedCommaOrParen (excerptAt ls))
termination_by structural _ _ ls => ls

/-- The expression that a list of lexemes starts with, and the lexemes behind it. -/
def expression (ls : List Lexeme) : Except ParseError (Expr × List Lexeme) :=
  readExpression .operand [] ls

/-- The program that a source text holds. -/
def parse (source : String) : Except ParseError Expr :=
  match expression (lexemes source.toList) with
  | .error e => .error e
  | .ok (e, []) => .ok e
  | .ok (_, l :: _) => .error (.unexpectedTrailingText (excerpt l.start))

end Egg.Syntax
