/-!
# Dumps

A dump shows the structure of a syntax tree or a value for people who want to look at it. It is
first laid out as a small document and then written in one of two ways: *compact*, on one line, or
*pretty*, with every item of a group on a line of its own, indented by four spaces a level and
followed by a comma.

Both writers put a document in front of a given text, so that writing takes linear time.
-/

namespace Egg

/-- What encloses the items of a group. -/
inductive Bracket where
  /-- A name and parentheses: `Name(…)`. -/
  | round (name : String)
  /-- A name and braces, with a space around the items. -/
  | curly (name : String)
  /-- Square brackets: `[…]`. -/
  | square

/-- A document to be dumped. -/
inductive Dump where
  /-- Text that is written as it is. -/
  | atom (text : List Char)
  /-- A labelled item: `label: content`. -/
  | field (label : String) (content : Dump)
  /-- Items between brackets. -/
  | group (bracket : Bracket) (items : List Dump)

namespace Bracket

/-- What stands before the items, up to the bracket. -/
def opening : Bracket → List Char
  | round name => name.toList ++ ['(']
  | curly name => name.toList ++ [' ', '\x7b']
  | square => ['[']

/-- The bracket behind the items. -/
def closing : Bracket → Char
  | round _ => ')'
  | curly _ => '\x7d'
  | square => ']'

/-- What separates the brackets from the items on one line. -/
def padding : Bracket → List Char
  | curly _ => [' ']
  | _ => []

end Bracket

namespace Dump

mutual

/-- The document on one line, followed by `rest`. -/
def compactTo : Dump → List Char → List Char
  | atom text, rest => text ++ rest
  | field label content, rest => label.toList ++ ':' :: ' ' :: content.compactTo rest
  | group b items, rest =>
    b.opening ++ (b.padding ++ compactItemsTo items (b.padding ++ b.closing :: rest))

/-- The items on one line, with a comma between each two, followed by `rest`. -/
def compactItemsTo : List Dump → List Char → List Char
  | [], rest => rest
  | [d], rest => d.compactTo rest
  | d :: d' :: ds, rest => d.compactTo (',' :: ' ' :: compactItemsTo (d' :: ds) rest)

end

/-- The document on one line. -/
def compact (d : Dump) : List Char := d.compactTo []

/-- The indentation of a level. -/
def indent (level : Nat) : List Char := List.replicate (4 * level) ' '

mutual

/-- The document over several lines, followed by `rest`. The first line is not indented; line breaks
within an atom are. -/
def prettyTo (level : Nat) : Dump → List Char → List Char
  | atom text, rest => text.flatMap (fun c => if c = '\n' then c :: indent level else [c]) ++ rest
  | field label content, rest => label.toList ++ ':' :: ' ' :: content.prettyTo level rest
  | group b [], rest => b.opening ++ b.closing :: rest
  | group b (d :: ds), rest =>
    b.opening ++ '\n' :: prettyItemsTo (level + 1) (d :: ds) (indent level ++ b.closing :: rest)

/-- The items, each on lines of its own and followed by a comma, followed by `rest`. -/
def prettyItemsTo (level : Nat) : List Dump → List Char → List Char
  | [], rest => rest
  | d :: ds, rest =>
    indent level ++ d.prettyTo level (',' :: '\n' :: prettyItemsTo level ds rest)

end

/-- The document over several lines. -/
def pretty (d : Dump) : List Char := d.prettyTo 0 []

end Dump

end Egg
