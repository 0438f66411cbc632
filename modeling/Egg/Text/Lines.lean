/-!
# Lines

A line ends at a line feed, and a carriage return directly before the line feed belongs to the line
ending. The last line may lack its line feed, and then a carriage return at its end is part of it.
-/

namespace Egg.Text

/-- A line held in reverse, without the carriage return that its line feed follows. -/
def withoutReturn : List Char → List Char
  | '\r' :: line => line
  | line => line

/-- The lines of a text, when the characters `line`, in reverse, have been read of the current
one. -/
def linesFrom (line : List Char) : List Char → List (List Char)
  | [] => if line.isEmpty then [] else [line.reverse]
  | c :: rest =>
    if c = '\n' then (withoutReturn line).reverse :: linesFrom [] rest
    else linesFrom (c :: line) rest

/-- The lines of a text, without their line endings. -/
def lines (text : List Char) : List (List Char) := linesFrom [] text

/-- The given lines with a line feed between each two. -/
def unlines (ls : List (List Char)) : List Char := ['\n'].intercalate ls

/-- A text with every line ending made a line feed, and none at its end. -/
def withPlainLineEndings (text : List Char) : List Char := unlines (lines text)

end Egg.Text
