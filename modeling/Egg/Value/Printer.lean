import Egg.Expr.Printer
import Egg.Value.Basic

/-!
# Printing values

`display` is what `print` writes: a text as it is, everything else in a form in which nested texts
are quoted. `describe` is the form that messages use; it names the kind of the value too. The dump
shows the content of a value and leaves out the scope of a function, which usually holds that
function.
-/

namespace Egg.Value

/-- Names with a comma and a space between each two, followed by `rest`. -/
def namesTo : List Name → List Char → List Char
  | [], rest => rest
  | [name], rest => name.toList ++ rest
  | name :: name' :: names, rest =>
    name.toList ++ ',' :: ' ' :: namesTo (name' :: names) rest

mutual

/-- The form of a value inside an array, followed by `rest`. -/
def nestedTo : Value → List Char → List Char
  | number n, rest => n.display ++ rest
  | text s, rest => '"' :: (s.toList ++ '"' :: rest)
  | bool true, rest => "true".toList ++ rest
  | bool false, rest => "false".toList ++ rest
  | array _ items, rest => '[' :: nestedItemsTo items (']' :: rest)
  | function _ c, rest => "<function(".toList ++ namesTo c.params (')' :: '>' :: rest)
  | native b, rest => "<native ".toList ++ (b.name.toList ++ '>' :: rest)

/-- The items of an array with a comma and a space between each two, followed by `rest`. -/
def nestedItemsTo : List Value → List Char → List Char
  | [], rest => rest
  | [v], rest => v.nestedTo rest
  | v :: v' :: vs, rest => v.nestedTo (',' :: ' ' :: nestedItemsTo (v' :: vs) rest)

end

/-- The form of a value that `print` writes. -/
def display : Value → String
  | text s => s
  | v => String.ofList (v.nestedTo [])

/-- The kind of a value. -/
def kindName : Value → String
  | number _ => "number"
  | text _ => "text"
  | bool _ => "boolean"
  | array _ _ => "array"
  | function _ _ => "function"
  | native _ => "native function"

/-- The form of a value in messages. -/
def describe : Value → String
  | array _ items => "array of length " ++ items.length.repr
  | function tag c => (function tag c).display
  | native b => (native b).display
  | v => v.kindName ++ " " ++ String.ofList (v.nestedTo [])

/-- The dump of a function, which always stands on one line. -/
def closureDump (c : Closure) : List Char :=
  let params := Dump.group .square (c.params.map Name.toDump)
  let fields := Dump.group (.curly "FunctionValue")
    [.field "params" params, .field "body" (.atom c.body.display.toList), .atom ['.', '.']]
  fields.compact

mutual

/-- The content of a value as a document. -/
def toDump : Value → Dump
  | number n => .atom ("Number(".toList ++ (n.valueDump ++ [')']))
  | text s => .atom ("Text(".toList ++ (Text.quoted s ++ [')']))
  | bool true => .atom "Bool(true)".toList
  | bool false => .atom "Bool(false)".toList
  | array _ items => .group (.round "Array") [.group .square (toDumps items)]
  | function _ c => .atom (closureDump c)
  | native b => .atom ("Builtin(".toList ++ (b.label.toList ++ [')']))

/-- The contents of several values. -/
def toDumps : List Value → List Dump
  | [] => []
  | v :: vs => v.toDump :: toDumps vs

end

end Egg.Value
