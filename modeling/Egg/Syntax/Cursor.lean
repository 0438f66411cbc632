import Egg.Syntax.Scanner

/-!
# Cursors

A cursor is a place in a source text. It is moved by the scanners, one lexical class at a time, and
stays where it is when a scanner finds nothing. Its position is counted in bytes of UTF-8.
-/

namespace Egg.Syntax

/-- The number of bytes of a text in UTF-8. -/
def utf8Length (cs : List Char) : Nat := cs.foldl (fun n c => n + c.utf8Size) 0

/-- A place in a source text. -/
structure Cursor where
  /-- The whole text. -/
  source : List Char
  /-- What lies ahead of the cursor. -/
  rest : List Char

namespace Cursor

/-- The cursor at the start of a text. -/
def start (source : List Char) : Cursor := ⟨source, source⟩

/-- The number of bytes before the cursor. -/
def position (c : Cursor) : Nat := utf8Length c.source - utf8Length c.rest

/-- Whether nothing lies ahead. -/
def atEnd (c : Cursor) : Bool := c.rest.isEmpty

/-- The next character. -/
def peek (c : Cursor) : Option Char := c.rest.head?

/-- Whether the next character is `ch`. -/
def check (c : Cursor) (ch : Char) : Bool := c.peek == some ch

/-- Moves over `ch` if it is the next character, and tells whether it was. -/
def eat (c : Cursor) (ch : Char) : Bool × Cursor :=
  if c.check ch then (true, { c with rest := c.rest.drop 1 }) else (false, c)

/-- Moves over all separators. -/
def skipSeparators (c : Cursor) : Cursor := { c with rest := Syntax.skipSeparators c.rest }

/-- Moves over what a scanner finds, if it finds something. -/
def scan (c : Cursor) (scanner : List Char → Option (List Char × List Char)) :
    Option (List Char) × Cursor :=
  match scanner c.rest with
  | some (found, rest) => (some found, { c with rest })
  | none => (none, c)

/-- Moves over a text and gives what stands between its quotes. -/
def scanText (c : Cursor) : Option (List Char) × Cursor := c.scan Syntax.scanText

/-- Moves over a number and gives its value. -/
def scanNumber (c : Cursor) : Option Number × Cursor :=
  let (digits, c) := c.scan scanDigits
  (digits.map Number.ofDigits, c)

/-- Moves over a word and gives it. -/
def scanWord (c : Cursor) : Option (List Char) × Cursor := c.scan Syntax.scanWord

/-- What lies ahead, as messages quote it. -/
def excerpt (c : Cursor) : String := Syntax.excerpt c.rest

end Cursor

end Egg.Syntax
