/-!
# Blank characters

Blank are the characters with the property `White_Space`: the ASCII blanks and line breaks, the
next-line and no-break characters, the spaces of general punctuation, the two separators of lines
and paragraphs, and the ideographic space.
-/

namespace Egg.Text

/-- Whether a character separates words and is otherwise ignored. -/
def isBlank (c : Char) : Bool :=
  let n := c.toNat
  (0x09 ≤ n && n ≤ 0x0d) || n == 0x20 || n == 0x85 || n == 0xa0 || n == 0x1680
    || (0x2000 ≤ n && n ≤ 0x200a) || n == 0x2028 || n == 0x2029 || n == 0x202f || n == 0x205f
    || n == 0x3000

/-- A text without the blanks at its start and at its end. -/
def trim (cs : List Char) : List Char :=
  ((cs.dropWhile isBlank).reverse.dropWhile isBlank).reverse

end Egg.Text
