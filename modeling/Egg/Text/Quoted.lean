import Egg.Text.Combining
import Egg.Text.Printable

/-!
# Quoted text

Dumps show a text between double quotes so that every character can be told apart. Quotes and
backslashes are preceded by a backslash, four control characters have a letter of their own, and
what cannot be seen, or would merge with the character before it, is given by its code point in
hexadecimal. All other characters stand for themselves.
-/

namespace Egg.Text

/-- The written form of one character in a quoted text. -/
def escaped (c : Char) : List Char :=
  if c = '\x00' then ['\\', '0']
  else if c = '\t' then ['\\', 't']
  else if c = '\r' then ['\\', 'r']
  else if c = '\n' then ['\\', 'n']
  else if c = '\\' then ['\\', '\\']
  else if c = '"' then ['\\', '"']
  else if isCombining c || !isPrintable c then
    '\\' :: 'u' :: '\x7b' :: (Nat.toDigits 16 c.toNat ++ ['\x7d'])
  else [c]

/-- The quoted form of a text. -/
def quoted (s : String) : List Char := '"' :: (s.toList.flatMap escaped ++ ['"'])

end Egg.Text
