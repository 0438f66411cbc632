import Egg.Syntax.Scanner
import Egg.Text.Quoted
import Egg.Dump

/-!
# Syntax errors

A source text is refused for one of three reasons. Each quotes the source at the place where reading
could not go on.
-/

namespace Egg.Syntax

/-- Why a source text is not a program. -/
inductive ParseError where
  /-- An expression should start here, and none does. -/
  | unexpectedInput (found : String)
  /-- An argument is followed by something else than a comma or a parenthesis. -/
  | expectedCommaOrParen (found : String)
  /-- There is more text after a complete expression. -/
  | unexpectedTrailingText (found : String)
deriving DecidableEq

namespace ParseError

/-- The excerpt at the place of the error. -/
def found : ParseError → String
  | unexpectedInput found => found
  | expectedCommaOrParen found => found
  | unexpectedTrailingText found => found

/-- The wording of an error. -/
def message : ParseError → String
  | unexpectedInput found => "unexpected input: " ++ found
  | expectedCommaOrParen found => "expected ',' or ')', found " ++ found
  | unexpectedTrailingText found => "unexpected trailing text: " ++ found

/-- The name of the reason. -/
def label : ParseError → String
  | unexpectedInput _ => "UnexpectedInput"
  | expectedCommaOrParen _ => "ExpectedCommaOrParen"
  | unexpectedTrailingText _ => "UnexpectedTrailingText"

/-- An error as a document. -/
def toDump (e : ParseError) : Dump :=
  .group (.curly e.label) [.field "found" (.atom (Text.quoted e.found))]

end ParseError

end Egg.Syntax
