import Egg.Dump
import Egg.Text.Quoted

/-!
# Names

An identifier is a variable, a parameter or an operator such as `total`, `+` or `==`. Names are
ordered by their code points, which is also the order of their bytes in UTF-8.
-/

namespace Egg

/-- An identifier. -/
abbrev Name := String

namespace Name

/-- An ascending list of names with one more name, unless it is there already. -/
def insertInto (name : Name) : List Name → List Name
  | [] => [name]
  | n :: rest =>
    if name = n then n :: rest
    else if name < n then name :: n :: rest
    else n :: insertInto name rest

/-- The distinct names of a list, in ascending order. -/
def sorted (names : List Name) : List Name := names.foldr insertInto []

/-- A name in a dump. It never spreads over several lines. -/
def toDump (name : Name) : Dump := .atom ("Name(".toList ++ (Text.quoted name ++ [')']))

end Name

end Egg
