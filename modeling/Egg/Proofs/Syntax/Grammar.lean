import Egg.Syntax.Scanner

/-!
# The grammar

```text
program     := separators expression separators
expression  := leaf ( separators "(" arguments separators ")" )*
arguments   := [ expression ( separators "," expression )* [ separators "," ] ]
```

Separators may stand before every token, and before each token all of them are skipped. A relation
`R cs x rest` of this module reads: `cs` begins with an `x`, and `rest` is what is left behind it.
What is left is part of the grammar, because a number, a word and a run of separators end where they
cannot go on.

The grammar knows three classes of characters, which are given one by one here: the blanks
(`isBlank_iff`), the characters of words (`isWordChar_iff`) and those that cannot follow a number
(`extendsNumber_iff`).
-/

namespace Egg.Syntax.Grammar

open Egg.Text (isBlank)

/-! ## Classes of characters -/

/-- The characters with the property `White_Space`. -/
def blanks : List Char :=
  ['\t', '\n', '\x0b', '\x0c', '\r', ' ', '\u0085', '\u00a0', '\u1680', '\u2000', '\u2001', '\u2002',
   '\u2003', '\u2004', '\u2005', '\u2006', '\u2007', '\u2008', '\u2009', '\u200a', '\u2028', '\u2029',
   '\u202f', '\u205f', '\u3000']

theorem isBlank_iff {c : Char} : isBlank c = true ↔ c ∈ blanks := by
  simp only [isBlank, blanks, List.mem_cons, List.not_mem_nil, or_false, ← Char.toNat_inj,
    Bool.or_eq_true, Bool.and_eq_true, decide_eq_true_eq, beq_iff_eq, Char.reduceToNat]
  omega

theorem isWordChar_iff {c : Char} :
    isWordChar c = true ↔ c ∉ blanks ∧ c ∉ ['(', ')', ',', '"'] := by
  rw [← isBlank_iff, Bool.not_eq_true]
  simp [isWordChar, and_assoc]

/-- Behind a run of digits, a letter or a digit of ASCII or an underscore makes the run a word. -/
theorem extendsNumber_iff {c : Char} : extendsNumber c = true ↔
    '0' ≤ c ∧ c ≤ '9' ∨ 'A' ≤ c ∧ c ≤ 'Z' ∨ 'a' ≤ c ∧ c ≤ 'z' ∨ c = '_' := by
  delta extendsNumber Char.isAlphanum Char.isAlpha Char.isUpper Char.isLower Char.isDigit
  simp only [Bool.or_eq_true, Bool.and_eq_true, decide_eq_true_eq, beq_iff_eq, Char.le_def, ge_iff_le]
  grind

/-! ## Relations -/

/-- `Skips cs rest`: all separators at the start of `cs` are those before `rest`. -/
inductive Skips : List Char → List Char → Prop where
  | done {cs : List Char} (h : ∀ c ∈ cs.head?, isBlank c = false ∧ c ≠ '#') : Skips cs cs
  | blank {c : Char} {cs rest : List Char} (hc : isBlank c = true) (h : Skips cs rest) :
      Skips (c :: cs) rest
  /-- A comment, which runs up to a line break or the end. -/
  | comment {body cs rest : List Char} (hb : '\n' ∉ body) (he : ∀ c ∈ cs.head?, c = '\n')
      (h : Skips cs rest) : Skips ('#' :: (body ++ cs)) rest

/-- `digits`, followed by `rest`, are a number: a run of digits that ends where neither a letter nor a
digit nor an underscore follows. -/
structure IsNumber (digits rest : List Char) : Prop where
  ne_nil : digits ≠ []
  digit : ∀ c ∈ digits, c.isDigit = true
  /-- The run cannot go on, and nothing else turns it into a word. -/
  boundary : ∀ c ∈ rest.head?, extendsNumber c = false

/-- `w`, followed by `rest`, is a longest run of characters of words. -/
structure IsWord (w rest : List Char) : Prop where
  ne_nil : w ≠ []
  wordChar : ∀ c ∈ w, isWordChar c = true
  boundary : ∀ c ∈ rest.head?, isWordChar c = false

/-- A text, else a number, else a word. -/
inductive Leaf : List Char → Expr → List Char → Prop where
  /-- A text runs from a quote to the next one. -/
  | text {t rest : List Char} (ht : '"' ∉ t) :
      Leaf ('"' :: (t ++ '"' :: rest)) (.text (String.ofList t)) rest
  | number {digits rest : List Char} (h : IsNumber digits rest) :
      Leaf (digits ++ rest) (.number (.ofDigits digits)) rest
  /-- A word, where no number stands. -/
  | word {w rest : List Char} (h : IsWord w rest)
      (hn : ∀ digits rest', w ++ rest = digits ++ rest' → ¬ IsNumber digits rest') :
      Leaf (w ++ rest) (.word (String.ofList w)) rest

mutual

/-- A leaf with argument lists behind it. -/
inductive Expression : List Char → Expr → List Char → Prop where
  | mk {cs start cs' rest : List Char} {e₀ e : Expr} (hs : Skips cs start) (hl : Leaf start e₀ cs')
      (ha : Applications e₀ cs' e rest) : Expression cs e rest

/-- `Applications f cs e rest`: with the argument lists that `cs` begins with, `f` becomes `e`. -/
inductive Applications : Expr → List Char → Expr → List Char → Prop where
  | nil {e : Expr} {cs : List Char} : Applications e cs e cs
  | cons {f e : Expr} {args : List Expr} {cs cs₁ cs₂ cs₃ rest : List Char}
      (ho : Skips cs ('(' :: cs₁)) (ha : Arguments cs₁ args cs₂) (hc : Skips cs₂ (')' :: cs₃))
      (h : Applications (.apply f args) cs₃ e rest) : Applications f cs e rest

/-- What stands between the parentheses of an argument list. -/
inductive Arguments : List Char → List Expr → List Char → Prop where
  | nil {cs : List Char} : Arguments cs [] cs
  | cons {e : Expr} {es : List Expr} {cs cs₁ rest : List Char} (he : Expression cs e cs₁)
      (h : MoreArguments cs₁ es rest) : Arguments cs (e :: es) rest

/-- What stands behind the first expression of an argument list. -/
inductive MoreArguments : List Char → List Expr → List Char → Prop where
  | nil {cs : List Char} : MoreArguments cs [] cs
  /-- A trailing comma. -/
  | trailing {cs rest : List Char} (hc : Skips cs (',' :: rest)) : MoreArguments cs [] rest
  /-- A comma and an expression, and then others. -/
  | cons {e : Expr} {es : List Expr} {cs cs₁ cs₂ rest : List Char} (hc : Skips cs (',' :: cs₁))
      (he : Expression cs₁ e cs₂) (h : MoreArguments cs₂ es rest) : MoreArguments cs (e :: es) rest

end

/-- `cs` is a program whose tree is `e`. -/
def Program (cs : List Char) (e : Expr) : Prop := ∃ rest, Expression cs e rest ∧ Skips rest []

end Egg.Syntax.Grammar
