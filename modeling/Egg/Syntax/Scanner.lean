import Egg.Expr.Basic
import Egg.Number.Rounding
import Egg.Text.Blank

/-!
# Lexical classes

Source text consists of texts, numbers, words and three punctuation marks, with separators between
them. Each scanner looks at the start of the remaining characters and answers with what it found
and what is left, or with nothing.

* A *text* runs from a double quote to the next double quote; there are no escapes.
* A *number* is the longest run of decimal digits, unless a letter, a digit or an underscore
  follows.
* A *word* is the longest run of characters that are neither blank nor one of `(`, `)`, `,`, `"`.
* *Separators* are blanks and comments, which run from `#` to the end of the line.
-/

namespace Egg.Syntax

open Egg.Text (isBlank)

/-- Whether a character can be part of a word. -/
def isWordChar (c : Char) : Bool :=
  !(isBlank c || c == '(' || c == ')' || c == ',' || c == '"')

/-- Whether a character, right after a run of digits, makes the run something else than a number. -/
def extendsNumber (c : Char) : Bool := c.isAlphanum || c == '_'

/-- What is left after all separators, if reading starts within a comment or outside of one. -/
def skipSeparatorsFrom : (inComment : Bool) → List Char → List Char
  | _, [] => []
  | true, c :: cs => skipSeparatorsFrom (c != '\n') cs
  | false, c :: cs =>
    if isBlank c then skipSeparatorsFrom false cs
    else if c = '#' then skipSeparatorsFrom true cs
    else c :: cs

/-- What is left after all separators at the start of `cs`. -/
def skipSeparators (cs : List Char) : List Char := skipSeparatorsFrom false cs

/-- A text at the start of `cs`: what stands between the quotes, and what follows them. -/
def scanText : List Char → Option (List Char × List Char)
  | '"' :: cs =>
    match cs.dropWhile (· != '"') with
    | _ :: rest => some (cs.takeWhile (· != '"'), rest)
    | [] => none
  | _ => none

/-- A number at the start of `cs`: its digits, and what follows them. -/
def scanDigits (cs : List Char) : Option (List Char × List Char) :=
  let digits := cs.takeWhile Char.isDigit
  let rest := cs.dropWhile Char.isDigit
  if digits.isEmpty || rest.head?.any extendsNumber then none else some (digits, rest)

/-- A word at the start of `cs`, and what follows it. -/
def scanWord (cs : List Char) : Option (List Char × List Char) :=
  let word := cs.takeWhile isWordChar
  if word.isEmpty then none else some (word, cs.dropWhile isWordChar)

/-- A leaf of the tree at the start of `cs`: a text, else a number, else a word. -/
def scanLeaf (cs : List Char) : Option (Expr × List Char) :=
  match scanText cs with
  | some (s, rest) => some (.text (String.ofList s), rest)
  | none =>
    match scanDigits cs with
    | some (digits, rest) => some (.number (.ofDigits digits), rest)
    | none => (scanWord cs).map fun (w, rest) => (.word (String.ofList w), rest)

/-- The longest excerpt of the source in a message. -/
def excerptLength : Nat := 16

/-- The remaining characters as they are quoted in a message: in back quotes, and cut short if there
are many. -/
def excerpt (cs : List Char) : String :=
  if cs.isEmpty then "end of input"
  else if cs.length ≤ excerptLength then String.ofList ('\x60' :: (cs ++ ['\x60']))
  else String.ofList ('\x60' :: (cs.take excerptLength ++ ['.', '.', '.', '\x60']))

/-! ## What the scanners leave is shorter -/

theorem length_skipSeparatorsFrom_le (b : Bool) (cs : List Char) :
    (skipSeparatorsFrom b cs).length ≤ cs.length := by
  induction cs generalizing b with
  | nil => simp [skipSeparatorsFrom]
  | cons c cs ih =>
    cases b with
    | true => simpa [skipSeparatorsFrom] using Nat.le_succ_of_le (ih (c != '\n'))
    | false =>
      simp only [skipSeparatorsFrom, List.length_cons]
      split
      · exact Nat.le_succ_of_le (ih false)
      · split
        · exact Nat.le_succ_of_le (ih true)
        · simp

theorem length_skipSeparators_le (cs : List Char) : (skipSeparators cs).length ≤ cs.length :=
  length_skipSeparatorsFrom_le false cs

/-- Dropping a run that holds at least one character leaves less. -/
theorem length_dropWhile_lt {p : Char → Bool} {cs : List Char} (h : cs.takeWhile p ≠ []) :
    (cs.dropWhile p).length < cs.length := by
  have hsum := congrArg List.length (List.takeWhile_append_dropWhile (p := p) (l := cs))
  have hpos := List.length_pos_iff.mpr h
  rw [List.length_append] at hsum
  omega

theorem length_lt_of_scanText {cs s rest : List Char} (h : scanText cs = some (s, rest)) :
    rest.length < cs.length := by
  unfold scanText at h
  split at h
  · next cs' =>
    split at h
    · next c rest' hd =>
      have hle := (List.dropWhile_suffix (l := cs') (· != '"')).length_le
      simp only [Option.some.injEq, Prod.mk.injEq] at h
      rw [hd, h.2] at hle
      simp only [List.length_cons] at hle ⊢
      omega
    · simp at h
  · simp at h

theorem length_lt_of_scanDigits {cs digits rest : List Char}
    (h : scanDigits cs = some (digits, rest)) : rest.length < cs.length := by
  unfold scanDigits at h
  simp only [Bool.or_eq_true, List.isEmpty_iff] at h
  split at h
  · simp at h
  · next hn =>
    simp only [Option.some.injEq, Prod.mk.injEq] at h
    rw [← h.2]
    exact length_dropWhile_lt fun h0 => hn (Or.inl h0)

theorem length_lt_of_scanWord {cs word rest : List Char} (h : scanWord cs = some (word, rest)) :
    rest.length < cs.length := by
  unfold scanWord at h
  simp only [List.isEmpty_iff] at h
  split at h
  · simp at h
  · next hn =>
    simp only [Option.some.injEq, Prod.mk.injEq] at h
    rw [← h.2]
    exact length_dropWhile_lt hn

theorem length_lt_of_scanLeaf {cs rest : List Char} {e : Expr}
    (h : scanLeaf cs = some (e, rest)) : rest.length < cs.length := by
  unfold scanLeaf at h
  split at h
  · next s r hs =>
    simp only [Option.some.injEq, Prod.mk.injEq] at h
    exact h.2 ▸ length_lt_of_scanText hs
  · split at h
    · next digits r hd =>
      simp only [Option.some.injEq, Prod.mk.injEq] at h
      exact h.2 ▸ length_lt_of_scanDigits hd
    · obtain ⟨⟨w, r⟩, hw, heq⟩ := Option.map_eq_some_iff.mp h
      simp only [Prod.mk.injEq] at heq
      exact heq.2 ▸ length_lt_of_scanWord hw

end Egg.Syntax
