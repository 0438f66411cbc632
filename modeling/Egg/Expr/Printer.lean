import Egg.Expr.Basic
import Egg.Number.Notation

/-!
# Printing expressions

An expression is displayed as canonical source text, `+(a, 10)`, with one space after each comma.
Its dump shows the tree with the kind of every node.
-/

namespace Egg.Expr

mutual

/-- The source text of an expression, followed by `rest`. -/
def displayTo : Expr → List Char → List Char
  | number n, rest => n.display ++ rest
  | text s, rest => '"' :: (s.toList ++ '"' :: rest)
  | word name, rest => name.toList ++ rest
  | apply f args, rest => f.displayTo ('(' :: displayArgsTo args (')' :: rest))

/-- The source text of arguments, with a comma and a space between each two, followed by `rest`. -/
def displayArgsTo : List Expr → List Char → List Char
  | [], rest => rest
  | [e], rest => e.displayTo rest
  | e :: e' :: es, rest => e.displayTo (',' :: ' ' :: displayArgsTo (e' :: es) rest)

end

/-- The source text of an expression. -/
def display (e : Expr) : String := String.ofList (e.displayTo [])

mutual

/-- The tree of an expression as a document. -/
def toDump : Expr → Dump
  | number n => .group (.round "Value") [.group (.round "Number") [.atom n.literalDump]]
  | text s => .group (.round "Value") [.group (.round "Text") [.atom (Text.quoted s)]]
  | word name => .group (.round "Word") [name.toDump]
  | apply f args =>
    .group (.curly "Apply")
      [.field "operator" f.toDump, .field "args" (.group .square (toDumps args))]

/-- The trees of several expressions. -/
def toDumps : List Expr → List Dump
  | [] => []
  | e :: es => e.toDump :: toDumps es

end

end Egg.Expr
