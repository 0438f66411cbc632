import Egg.Syntax.Scanner

/-!
# Lexemes

The source text as a list of lexemes. A lexeme knows the text from its first character to the end of
the source, which is what a message about it quotes. Reading never fails: a quote that no later
quote closes is a lexeme of its own, and reaches to the end of the source.
-/

namespace Egg.Syntax

/-- A lexical unit. -/
inductive Token where
  /-- A text, a number or a word. -/
  | leaf (e : Expr)
  /-- `(` -/
  | opening
  /-- `)` -/
  | closing
  /-- `,` -/
  | comma
  /-- A text that lacks its second quote. -/
  | unclosed

/-- A token with its place in the source. -/
structure Lexeme where
  /-- What was read. -/
  token : Token
  /-- The source from the token's first character on. -/
  start : List Char

/-- The token that starts with the character `c`, and what follows it. -/
def readToken (c : Char) (cs : List Char) : Token × List Char :=
  if c = '(' then (.opening, cs)
  else if c = ')' then (.closing, cs)
  else if c = ',' then (.comma, cs)
  else match scanLeaf (c :: cs) with
    | some (e, rest) => (.leaf e, rest)
    | none => (.unclosed, [])

theorem length_readToken_le (c : Char) (cs : List Char) :
    (readToken c cs).2.length ≤ cs.length := by
  unfold readToken
  repeat' split
  all_goals try exact Nat.le_refl _
  · next h => exact Nat.le_of_lt_succ (length_lt_of_scanLeaf h)
  · exact Nat.zero_le _

/-- The lexemes of `cs`, behind those already read, which are held in reverse. -/
def lexemesFrom (read : List Lexeme) (cs : List Char) : List Lexeme :=
  match h : skipSeparators cs with
  | [] => read.reverse
  | c :: rest =>
    have : (readToken c rest).2.length < cs.length := by
      have h₁ := length_readToken_le c rest
      have h₂ := length_skipSeparators_le cs
      rw [h, List.length_cons] at h₂
      omega
    lexemesFrom (⟨(readToken c rest).1, c :: rest⟩ :: read) (readToken c rest).2
termination_by cs.length

/-- The lexemes of a source text. -/
def lexemes (source : List Char) : List Lexeme := lexemesFrom [] source

end Egg.Syntax
