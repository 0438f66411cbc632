import Egg.Proofs.Syntax.Scanning
import Egg.Syntax.Lexeme
import Mathlib

/-!
# Where tokens end

Text that is put behind a source can only change its last token. A number and a word end where they
cannot go on, so they stay as they are if something follows them already, or if what is added begins
with a blank (`Leaf.append`). Separators stay the same if a token follows them, and a comment at the
very end is closed by a line break.
-/

namespace Egg.Syntax

open Egg.Text (isBlank)

namespace Grammar

theorem Skips.boundary {cs rest : List Char} (h : Skips cs rest) :
    ∀ c ∈ rest.head?, isBlank c = false ∧ c ≠ '#' := by
  induction h with
  | done h => exact h
  | blank _ _ ih => exact ih
  | comment _ _ _ ih => exact ih

/-- Letters, digits and the underscore stand between the blanks and punctuation marks and the blanks
beyond them. -/
theorem toNat_of_extendsNumber {c : Char} (h : extendsNumber c = true) :
    48 ≤ c.toNat ∧ c.toNat ≤ 122 := by
  simp only [extendsNumber_iff, Char.le_def, UInt32.le_iff_toNat_le] at h
  change 48 ≤ c.val.toNat ∧ c.val.toNat ≤ 122
  rcases h with ⟨hl, hu⟩ | ⟨hl, hu⟩ | ⟨hl, hu⟩ | rfl
  · exact ⟨hl, le_trans hu (by decide)⟩
  · exact ⟨le_trans (by decide) hl, le_trans hu (by decide)⟩
  · exact ⟨le_trans (by decide) hl, le_trans hu (by decide)⟩
  · decide

theorem isWordChar_of_extendsNumber {c : Char} (h : extendsNumber c = true) :
    isWordChar c = true := by
  obtain ⟨hlow, hhigh⟩ := toNat_of_extendsNumber h
  have hapart : ∀ d ∈ blanks ++ ['(', ')', ',', '"'], d.toNat < 48 ∨ 122 < d.toNat := by
    simp [blanks]
  have hnot : c ∉ blanks ++ ['(', ')', ',', '"'] := by
    intro hmem
    have hc := hapart c hmem
    omega
  rw [List.mem_append, not_or] at hnot
  exact isWordChar_iff.mpr hnot

/-- What follows a word would not have changed a run of digits. -/
theorem IsWord.not_extendsNumber {w rest : List Char} (h : IsWord w rest) :
    ∀ c ∈ rest.head?, extendsNumber c = false := by
  intro c hc
  cases hext : extendsNumber c with
  | false => rfl
  | true =>
    have hchar := isWordChar_of_extendsNumber hext
    rw [h.boundary c hc] at hchar
    cases hchar

/-- The digits that a word begins with belong to the word. -/
theorem IsWord.split {w rest digits rest' : List Char} (h : IsWord w rest)
    (hd : ∀ c ∈ digits, c.isDigit = true) (heq : w ++ rest = digits ++ rest') :
    ∃ tail, w = digits ++ tail ∧ rest' = tail ++ rest := by
  rcases List.append_eq_append_iff.mp heq with ⟨extra, rfl, rfl⟩ | ⟨tail, rfl, rfl⟩
  · cases extra with
    | nil => exact ⟨[], by simp, by simp⟩
    | cons c extra =>
      have hext := extendsNumber_of_isDigit (hd c (by simp))
      rw [h.not_extendsNumber c rfl] at hext
      cases hext
  · exact ⟨tail, rfl, rfl⟩

/-- Whether a word begins with a number does not depend on what stands behind it. -/
theorem IsWord.begins_with_number_iff {w rest digits tail : List Char} (h : IsWord w rest)
    (heq : w = digits ++ tail) : IsNumber digits (tail ++ rest) ↔ IsNumber digits tail := by
  cases tail with
  | cons c tail =>
    constructor
    · intro hn
      exact ⟨hn.ne_nil, hn.digit, hn.boundary⟩
    · intro hn
      exact ⟨hn.ne_nil, hn.digit, hn.boundary⟩
  | nil =>
    constructor
    · intro hn
      exact ⟨hn.ne_nil, hn.digit, by simp⟩
    · intro hn
      exact ⟨hn.ne_nil, hn.digit, h.not_extendsNumber⟩

/-- A word that is a leaf in front of one rest is a leaf in front of every rest that ends it. -/
theorem IsWord.leaf {w rest rest' : List Char} (h : IsWord w rest) (h' : IsWord w rest')
    (hn : ∀ digits tail, w ++ rest = digits ++ tail → ¬ IsNumber digits tail) :
    Leaf (w ++ rest') (.word (String.ofList w)) rest' := by
  refine .word h' fun digits tail' heq hnumber => ?_
  -- Digits at the start lie within the word, so what follows the word does not matter.
  obtain ⟨tail, hsplit, rfl⟩ := h'.split hnumber.digit heq
  have hshort := (h'.begins_with_number_iff hsplit).mp hnumber
  refine hn digits (tail ++ rest) ?_ ((h.begins_with_number_iff hsplit).mpr hshort)
  rw [hsplit, List.append_assoc]

theorem not_isBlank_of_isWordChar {c : Char} (h : isWordChar c = true) : isBlank c = false := by
  rw [← Bool.not_eq_true, isBlank_iff]
  exact (isWordChar_iff.mp h).1

/-- What may be put behind a text whose last token leaves `rest`: anything if the text goes on there,
and otherwise something that begins with a blank. -/
def Separates (rest t : List Char) : Prop := rest = [] → ∀ c ∈ t.head?, isBlank c = true

/-- What every blank and the next character have, the next character still has when `t` is added. -/
theorem Separates.head? {p : Char → Prop} {rest t : List Char} (ht : Separates rest t)
    (hrest : ∀ c ∈ rest.head?, p c) (hblank : ∀ c, isBlank c = true → p c) :
    ∀ c ∈ (rest ++ t).head?, p c := by
  intro c hc
  cases rest with
  | nil => exact hblank c (ht rfl c hc)
  | cons d rest => exact hrest c hc

theorem Separates.newline (rest t : List Char) : Separates rest ('\n' :: t) := by
  intro _ c hc
  obtain rfl : '\n' = c := by simpa using hc
  rfl

theorem not_isWordChar_of_isBlank {c : Char} (h : isBlank c = true) : isWordChar c = false := by
  rw [← Bool.not_eq_true, isWordChar_iff]
  exact fun hchar => hchar.1 (isBlank_iff.mp h)

theorem not_extendsNumber_of_isBlank {c : Char} (h : isBlank c = true) : extendsNumber c = false := by
  cases hext : extendsNumber c with
  | false => rfl
  | true =>
    have hblank := not_isBlank_of_isWordChar (isWordChar_of_extendsNumber hext)
    rw [h] at hblank
    cases hblank

theorem IsNumber.append {digits rest t : List Char} (h : IsNumber digits rest)
    (ht : Separates rest t) : IsNumber digits (rest ++ t) :=
  ⟨h.ne_nil, h.digit, ht.head? h.boundary fun _ => not_extendsNumber_of_isBlank⟩

theorem IsWord.append {w rest t : List Char} (h : IsWord w rest) (ht : Separates rest t) :
    IsWord w (rest ++ t) :=
  ⟨h.ne_nil, h.wordChar, ht.head? h.boundary fun _ => not_isWordChar_of_isBlank⟩

/-- A leaf is the same leaf when something is put behind the text, unless it could grow. -/
theorem Leaf.append {cs rest t : List Char} {e : Expr} (h : Leaf cs e rest) (ht : Separates rest t) :
    Leaf (cs ++ t) e (rest ++ t) := by
  cases h with
  | @text s rest hs =>
    have hleaf : Leaf ('"' :: (s ++ '"' :: (rest ++ t))) (.text (String.ofList s)) (rest ++ t) :=
      .text hs
    simpa using hleaf
  | @number digits rest hnumber =>
    rw [List.append_assoc]
    exact .number (hnumber.append ht)
  | @word w rest hword hn =>
    rw [List.append_assoc]
    exact hword.leaf (hword.append ht) hn

end Grammar

/-! ## Separators -/

theorem skipSeparatorsFrom_append {b : Bool} {cs : List Char} (h : skipSeparatorsFrom b cs ≠ [])
    (t : List Char) : skipSeparatorsFrom b (cs ++ t) = skipSeparatorsFrom b cs ++ t := by
  induction cs generalizing b with
  | nil => exact absurd rfl h
  | cons c cs ih =>
    cases b with
    | true => exact ih h
    | false =>
      simp only [List.cons_append, skipSeparatorsFrom] at h ⊢
      by_cases hblank : isBlank c = true
      · rw [if_pos hblank] at h ⊢
        rw [if_pos hblank]
        exact ih h
      · rw [if_neg hblank] at h ⊢
        rw [if_neg hblank]
        by_cases hc : c = '#'
        · rw [if_pos hc] at h ⊢
          rw [if_pos hc]
          exact ih h
        · rw [if_neg hc, if_neg hc, List.cons_append]

/-- Separators in front of a token end where they did. -/
theorem skipSeparators_append {cs : List Char} (h : skipSeparators cs ≠ []) (t : List Char) :
    skipSeparators (cs ++ t) = skipSeparators cs ++ t :=
  skipSeparatorsFrom_append h t

theorem skipSeparators_append_of_eq_cons {cs start : List Char} {c : Char}
    (h : skipSeparators cs = c :: start) (t : List Char) :
    skipSeparators (cs ++ t) = c :: (start ++ t) := by
  rw [skipSeparators_append (by simp [h]), h, List.cons_append]

/-- Behind separators alone, reading goes on within a comment or outside of one. -/
theorem exists_skipSeparatorsFrom_append {b : Bool} {cs : List Char}
    (h : skipSeparatorsFrom b cs = []) :
    ∃ b', ∀ t, skipSeparatorsFrom b (cs ++ t) = skipSeparatorsFrom b' t := by
  induction cs generalizing b with
  | nil => exact ⟨b, fun _ => rfl⟩
  | cons c cs ih =>
    cases b with
    | true => exact ih h
    | false =>
      simp only [List.cons_append, skipSeparatorsFrom] at h ⊢
      by_cases hblank : isBlank c = true
      · simp only [if_pos hblank] at h ⊢
        exact ih h
      · simp only [if_neg hblank] at h ⊢
        by_cases hc : c = '#'
        · simp only [if_pos hc] at h ⊢
          exact ih h
        · rw [if_neg hc] at h
          cases h

/-- Behind separators alone, even within a comment, a new line begins afresh. -/
theorem skipSeparators_append_newline {cs : List Char} (h : skipSeparators cs = []) (t : List Char) :
    skipSeparators (cs ++ '\n' :: t) = skipSeparators t := by
  obtain ⟨b, hb⟩ := exists_skipSeparatorsFrom_append h
  rw [skipSeparators, hb]
  cases b <;> rfl

/-! ## Tokens -/

/-- Where no leaf begins, a character that is neither blank nor a punctuation mark is a quote that no
other one follows. -/
theorem scanLeaf_eq_none {c : Char} {cs : List Char} (hblank : isBlank c = false)
    (hopening : c ≠ '(') (hclosing : c ≠ ')') (hcomma : c ≠ ',') (h : scanLeaf (c :: cs) = none) :
    c = '"' ∧ '"' ∉ cs := by
  by_cases hquote : c = '"'
  · subst hquote
    refine ⟨rfl, fun hmem => ?_⟩
    obtain ⟨t, rest, rfl, ht⟩ := List.eq_append_cons_of_mem hmem
    have hleaf : Grammar.Leaf ('"' :: (t ++ '"' :: rest)) (.text (String.ofList t)) rest := .text ht
    rw [leaf_iff.mp hleaf] at h
    cases h
  · have hchar : isWordChar c = true := by simp [isWordChar, *]
    have hword : scanWord (c :: cs) ≠ none := by simp [scanWord, hchar]
    unfold scanLeaf at h
    split at h
    · cases h
    · split at h
      · cases h
      · exact absurd (Option.map_eq_none_iff.mp h) hword

theorem readToken_unclosed {cs : List Char} (h : '"' ∉ cs) : readToken '"' cs = (.unclosed, []) := by
  have hdrop : cs.dropWhile (· != '"') = [] := by
    refine List.dropWhile_eq_nil_iff.mpr fun c hc => ?_
    rw [bne_iff_ne]
    rintro rfl
    exact h hc
  have hdigit : Char.isDigit '"' = false := rfl
  have hword : isWordChar '"' = false := rfl
  simp [readToken, scanLeaf, scanText, scanDigits, scanWord, hdrop, hdigit, hword]

/-- What a token is and where it begins. -/
theorem readToken_cases {c : Char} (hblank : isBlank c = false) (cs : List Char) :
    (c = '(' ∧ readToken c cs = (.opening, cs)) ∨ (c = ')' ∧ readToken c cs = (.closing, cs)) ∨
      (c = ',' ∧ readToken c cs = (.comma, cs)) ∨
      (∃ e rest, Grammar.Leaf (c :: cs) e rest ∧ readToken c cs = (.leaf e, rest)) ∨
      (c = '"' ∧ '"' ∉ cs ∧ readToken c cs = (.unclosed, [])) := by
  by_cases hopening : c = '('
  · subst hopening
    exact .inl ⟨rfl, rfl⟩
  by_cases hclosing : c = ')'
  · subst hclosing
    exact .inr (.inl ⟨rfl, rfl⟩)
  by_cases hcomma : c = ','
  · subst hcomma
    exact .inr (.inr (.inl ⟨rfl, rfl⟩))
  refine .inr (.inr (.inr ?_))
  cases hscan : scanLeaf (c :: cs) with
  | some found =>
    obtain ⟨e, rest⟩ := found
    refine .inl ⟨e, rest, leaf_iff.mpr hscan, ?_⟩
    simp [readToken, hopening, hclosing, hcomma, hscan]
  | none =>
    obtain ⟨hquote, hmem⟩ := scanLeaf_eq_none hblank hopening hclosing hcomma hscan
    refine .inr ⟨hquote, hmem, ?_⟩
    simp [readToken, hopening, hclosing, hcomma, hscan]

/-- A punctuation mark is a token whatever follows it; any other token is a leaf or an unclosed text. -/
theorem readToken_mark_or {c : Char} (hblank : isBlank c = false) (cs : List Char) :
    (∃ token, ∀ cs', readToken c cs' = (token, cs')) ∨
      (∃ e rest, Grammar.Leaf (c :: cs) e rest ∧ readToken c cs = (.leaf e, rest)) ∨
      (c = '"' ∧ '"' ∉ cs ∧ readToken c cs = (.unclosed, [])) := by
  rcases readToken_cases hblank cs with ⟨rfl, -⟩ | ⟨rfl, -⟩ | ⟨rfl, -⟩ | hother
  · exact .inl ⟨.opening, fun _ => rfl⟩
  · exact .inl ⟨.closing, fun _ => rfl⟩
  · exact .inl ⟨.comma, fun _ => rfl⟩
  · exact .inr hother

end Egg.Syntax
