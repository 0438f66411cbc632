import Egg.Proofs.Syntax.Completion
import Mathlib

/-!
# Where a source is refused

An error quotes the source from the token on at which the parser stalls. The source splits there
into a part that was read, with the separators behind it, and the rest, and the reason of the error
tells what the rest begins with (`exists_error_place`). If the reason is text behind a complete
expression, the part that was read is a program by itself. For what is cut off behind a token that
was read leaves the token as it is (`Reads.of_append`), so a parser that is given the first part
alone comes to the same stand, and finds the end of the source there.
-/

namespace Egg.Syntax

open Egg.Text (isBlank)
open Grammar

/-! ## What is left is the end of the source -/

theorem skipSeparatorsFrom_suffix (b : Bool) (cs : List Char) :
    skipSeparatorsFrom b cs <:+ cs := by
  induction cs generalizing b with
  | nil => exact List.suffix_rfl
  | cons c cs ih =>
    cases b with
    | true => exact (ih (c != '\n')).trans (List.suffix_cons c cs)
    | false =>
      rw [skipSeparatorsFrom]
      split
      · exact (ih false).trans (List.suffix_cons c cs)
      · split
        · exact (ih true).trans (List.suffix_cons c cs)
        · exact List.suffix_rfl

theorem Grammar.Leaf.suffix {cs rest : List Char} {e : Expr} (h : Leaf cs e rest) :
    rest <:+ cs := by
  cases h with
  | @text t => exact ⟨'"' :: (t ++ ['"']), by simp⟩
  | number => exact List.suffix_append _ _
  | word => exact List.suffix_append _ _

/-- Behind its first character, a token leaves an end of the text. -/
theorem readToken_suffix (c : Char) (cs : List Char) : (readToken c cs).2 <:+ cs := by
  unfold readToken
  split
  · exact List.suffix_rfl
  · split
    · exact List.suffix_rfl
    · split
      · exact List.suffix_rfl
      · split
        · next e rest hscan =>
          rcases List.suffix_cons_iff.mp (leaf_iff.mpr hscan).suffix with heq | hsuffix
          · have hlt := length_lt_of_scanLeaf hscan
            rw [heq] at hlt
            exact absurd hlt (Nat.lt_irrefl _)
          · exact hsuffix
        · exact List.nil_suffix

theorem FirstLexeme.suffix {cs rest : List Char} {l : Lexeme} (h : FirstLexeme cs l rest) :
    rest <:+ cs := by
  cases h with
  | @mk start _ c token hs hread =>
    have htoken := readToken_suffix c start
    have hskip : skipSeparators cs <:+ cs := skipSeparatorsFrom_suffix false cs
    rw [hread] at htoken
    rw [skips_iff.mp hs] at hskip
    exact (htoken.trans (List.suffix_cons c start)).trans hskip

theorem Reads.suffix {st st' : Stand} {cs rest : List Char} (h : Reads st cs st' rest) :
    rest <:+ cs := by
  induction h with
  | done => exact List.suffix_rfl
  | step hl _ _ ih => exact ih.trans hl.suffix

/-! ## Cutting text off behind what was read -/

theorem Grammar.IsNumber.of_append {digits rest t : List Char} (h : IsNumber digits (rest ++ t)) :
    IsNumber digits rest :=
  ⟨h.ne_nil, h.digit, fun c hc => h.boundary c (List.mem_head?_append_of_mem_head? hc)⟩

theorem Grammar.IsWord.of_append {w rest t : List Char} (h : IsWord w (rest ++ t)) :
    IsWord w rest :=
  ⟨h.ne_nil, h.wordChar, fun c hc => h.boundary c (List.mem_head?_append_of_mem_head? hc)⟩

theorem Grammar.Leaf.of_append {cs rest t : List Char} {e : Expr} (h : Leaf (cs ++ t) e (rest ++ t)) :
    Leaf cs e rest := by
  generalize hcs : cs ++ t = cs', hrest : rest ++ t = rest' at h
  cases h with
  | @text s rest' hs =>
    subst hrest
    have heq : cs ++ t = '"' :: (s ++ '"' :: rest) ++ t := by simpa using hcs
    rw [List.append_cancel_right heq]
    exact .text hs
  | @number digits rest' hnumber =>
    subst hrest
    rw [← List.append_assoc] at hcs
    rw [List.append_cancel_right hcs]
    exact .number hnumber.of_append
  | @word w rest' hword hn =>
    subst hrest
    rw [← List.append_assoc] at hcs
    rw [List.append_cancel_right hcs]
    exact hword.leaf hword.of_append hn

theorem skipSeparators_of_append {cs start t : List Char} {c : Char}
    (h : skipSeparators (cs ++ t) = c :: start ++ t) : skipSeparators cs = c :: start := by
  by_cases hnil : skipSeparators cs = []
  · -- then the separators reach up to `t` or into it, and no more than `t` is left
    obtain ⟨b, hb⟩ := exists_skipSeparatorsFrom_append hnil
    have hle := length_skipSeparatorsFrom_le b t
    rw [skipSeparators, hb] at h
    rw [h, List.length_append, List.length_cons] at hle
    omega
  · rw [skipSeparators_append hnil] at h
    exact List.append_cancel_right h

/-- A lexeme that is complete before `t` is complete without `t`. -/
theorem FirstLexeme.of_append {cs rest t : List Char} {l : Lexeme}
    (h : FirstLexeme (cs ++ t) l (rest ++ t)) (hclosed : l.token ≠ .unclosed) :
    ∃ start, FirstLexeme cs ⟨l.token, start⟩ rest := by
  generalize hcs : cs ++ t = cs', hrest : rest ++ t = rest' at h
  cases h with
  | @mk start _ c token hs hread =>
    subst hcs hrest
    have hsuffix := readToken_suffix c start
    rw [hread] at hsuffix
    obtain ⟨read, rfl⟩ := hsuffix
    rw [← List.append_assoc, skips_iff] at hs
    refine ⟨c :: (read ++ rest), .mk (skips_iff.mpr (skipSeparators_of_append hs)) ?_⟩
    rcases readToken_mark_or ((skips_iff.mpr hs).boundary c rfl).1 (read ++ (rest ++ t)) with
      ⟨mark, hmark⟩ | ⟨e, rest', hleaf, heq⟩ | ⟨-, -, heq⟩
    · -- behind a mark nothing was read
      obtain ⟨rfl, hleft⟩ := Prod.mk.inj ((hmark _).symm.trans hread)
      rw [List.append_left_eq_self.mp hleft]
      exact hmark rest
    · obtain ⟨rfl, rfl⟩ := Prod.mk.inj (heq.symm.trans hread)
      rw [← List.append_assoc, ← List.cons_append] at hleaf
      exact readToken_leaf hleaf.of_append
    · obtain ⟨rfl, -⟩ := Prod.mk.inj (heq.symm.trans hread)
      exact absurd rfl hclosed

/-- What was read before `t` is read without `t`. -/
theorem Reads.of_append {st st' : Stand} {cs rest t : List Char}
    (h : Reads st (cs ++ t) st' (rest ++ t)) : Reads st cs st' rest := by
  generalize hcs : cs ++ t = cs', hrest : rest ++ t = rest' at h
  induction h generalizing cs with
  | done =>
    rw [List.append_cancel_right (hcs.trans hrest.symm)]
    exact .done
  | @step st st₁ st' cs' cs₁ rest' l hl ha h ih =>
    subst hcs hrest
    obtain ⟨read, rfl⟩ := h.suffix
    rw [← List.append_assoc] at hl
    obtain ⟨start, hl'⟩ := hl.of_append (Stand.ne_unclosed_of_advance ha)
    exact .step hl' ha (ih (List.append_assoc _ _ _) rfl)

/-! ## The place of an error -/

/-- The source splits at the token at which the parser stalls. The part before it, taken alone, is
answered as the end of the source would be answered there. -/
theorem exists_stall_split (s : String) : ∃ (st : Stand) (before : String) (rest : List Char),
    st.Stalls rest ∧ s = before ++ String.ofList (skipSeparators rest) ∧
      parse s = st.verdict (skipSeparators rest) ∧ parse before = st.verdict [] := by
  obtain ⟨st, rest, hreads, hstall, hverdict⟩ := exists_stall s
  obtain ⟨read, hread⟩ := hreads.suffix
  obtain ⟨separators, hsplit⟩ : skipSeparators rest <:+ rest := skipSeparatorsFrom_suffix false rest
  have hbefore : s.toList = read ++ separators ++ skipSeparators rest := by
    rw [List.append_assoc, hsplit, hread]
  refine ⟨st, String.ofList (read ++ separators), rest, hstall, ?_, hverdict, ?_⟩
  · rw [← String.ofList_append, ← hbefore, String.ofList_toList]
  · have hskip : skipSeparators separators = [] := by
      by_contra hne
      have happend := skipSeparators_append hne (skipSeparators rest)
      rw [hsplit] at happend
      exact hne (List.append_left_eq_self.mp happend.symm)
    have hreads' : Reads .start (read ++ separators ++ skipSeparators rest) st
        (separators ++ skipSeparators rest) := by
      rw [hsplit, ← hbefore]
      exact hreads
    rw [parse_eq_start_parse, String.toList_ofList, hreads'.of_append.parse_eq,
      lexemes_of_skips_nil (skips_iff.mpr hskip), Stand.parse_nil]

/-- What an error shows of the source from its place on: at most 16 characters, in back quotes. -/
inductive Quotes : (rest : List Char) → (found : String) → Prop where
  | nothing : Quotes [] "end of input"
  | whole {rest : List Char} (hne : rest ≠ []) (h : rest.length ≤ 16) :
      Quotes rest ("\x60" ++ String.ofList rest ++ "\x60")
  | cut {rest : List Char} (h : 16 < rest.length) :
      Quotes rest ("\x60" ++ String.ofList (rest.take 16) ++ "...\x60")

theorem quotes_excerpt (rest : List Char) : Quotes rest (excerpt rest) := by
  rw [excerpt]
  split
  · next hnil =>
    rw [List.isEmpty_iff.mp hnil]
    exact .nothing
  · next hne =>
    rw [List.isEmpty_iff] at hne
    split
    · next hle =>
      have heq : String.ofList ('\x60' :: (rest ++ ['\x60'])) =
          "\x60" ++ String.ofList rest ++ "\x60" := by
        simp [← String.toList_inj]
      rw [heq]
      exact .whole hne hle
    · next hgt =>
      have heq : String.ofList ('\x60' :: (rest.take 16 ++ ['.', '.', '.', '\x60'])) =
          "\x60" ++ String.ofList (rest.take 16) ++ "...\x60" := by
        simp [← String.toList_inj]
      rw [excerptLength, heq]
      exact .cut (Nat.lt_of_not_le hgt)

/-- What stands before and behind the place of an error. -/
def ParseError.Fits (before : String) (rest : List Char) : ParseError → Prop
  | .unexpectedInput _ =>
    ∀ c cs, rest = c :: cs → c = '(' ∨ c = ')' ∨ c = ',' ∨ c = '"' ∧ '"' ∉ cs
  | .expectedCommaOrParen _ => ∀ c ∈ rest.head?, c ≠ '(' ∧ c ≠ ')' ∧ c ≠ ','
  | .unexpectedTrailingText _ =>
    (∃ c cs, rest = c :: cs ∧ c ≠ '(') ∧ ∃ e, parse before = .ok e

/-- A complete expression is never followed by an argument list that is not read. -/
theorem Stand.Stalls.ne_opening {a : Expr} {calls : List OpenCall} {rest cs : List Char} {c : Char}
    (h : Stand.Stalls ⟨.continuation a, calls⟩ rest) (hskip : skipSeparators rest = c :: cs) :
    c ≠ '(' := by
  rintro rfl
  cases h _ _ (firstLexeme_of_skipSeparators hskip)

theorem Stand.Stalls.ne_mark {a : Expr} {call : OpenCall} {calls : List OpenCall}
    {rest cs : List Char} {c : Char} (h : Stand.Stalls ⟨.continuation a, call :: calls⟩ rest)
    (hskip : skipSeparators rest = c :: cs) : c ≠ ')' ∧ c ≠ ',' := by
  constructor
  · rintro rfl
    cases h _ _ (firstLexeme_of_skipSeparators hskip)
  · rintro rfl
    cases h _ _ (firstLexeme_of_skipSeparators hskip)

/-- The error at a place is one of those that fit there. -/
theorem fits_of_stalls {st : Stand} {before : String} {rest : List Char} {err : ParseError}
    (h : st.Stalls rest) (herr : st.verdict (skipSeparators rest) = .error err)
    (hbefore : parse before = st.verdict []) :
    err.Fits before (skipSeparators rest) ∧ err.found = excerpt (skipSeparators rest) := by
  obtain ⟨expected, calls⟩ := st
  cases expected with
  | operand =>
    cases herr
    exact ⟨fun c cs hskip => h.head_of_expectsExpression nofun hskip, rfl⟩
  | argument =>
    cases herr
    exact ⟨fun c cs hskip => h.head_of_expectsExpression nofun hskip, rfl⟩
  | continuation a =>
    cases calls with
    | cons call calls =>
      cases herr
      refine ⟨fun c hc => ?_, rfl⟩
      obtain ⟨cs, hskip⟩ := List.head?_eq_some_iff.mp hc
      exact ⟨h.ne_opening hskip, h.ne_mark hskip⟩
    | nil =>
      cases hskip : skipSeparators rest with
      | nil =>
        rw [hskip] at herr
        cases herr
      | cons c cs =>
        rw [hskip] at herr
        cases herr
        exact ⟨⟨⟨c, cs, rfl, h.ne_opening hskip⟩, a, hbefore⟩, rfl⟩

/-- An error quotes the source from the place on where the parser cannot go on, which is the end of
the source or a token. Where an expression should begin, this is a punctuation mark or a text that is
not closed; behind an argument it is anything but a punctuation mark; and behind a complete
expression it is anything but an argument list, and the source up to there is a program. -/
theorem exists_error_place {s : String} {err : ParseError} (h : parse s = .error err) :
    ∃ (before : String) (rest : List Char), s = before ++ String.ofList rest ∧
      (∀ c ∈ rest.head?, isBlank c = false ∧ c ≠ '#') ∧
      Quotes rest err.found ∧ err.Fits before rest := by
  obtain ⟨st, before, rest, hstall, hsplit, hverdict, hbefore⟩ := exists_stall_split s
  obtain ⟨hfits, hfound⟩ := fits_of_stalls hstall (hverdict.symm.trans h) hbefore
  have hstart : Skips rest (skipSeparators rest) := skips_iff.mpr rfl
  refine ⟨before, skipSeparators rest, hsplit, hstart.boundary, ?_, hfits⟩
  rw [hfound]
  exact quotes_excerpt _

/-- A long text stands behind a call with a comment. -/
theorem exists_error_place_behind_call :
    parse "f(1) # 2\n \"a b c d e f g h i j\"" =
        .error (.unexpectedTrailingText "\x60\"a b c d e f g h...\x60") ∧
      ∃ (before : String) (rest : List Char),
        "f(1) # 2\n \"a b c d e f g h i j\"" = before ++ String.ofList rest ∧
        (∀ c ∈ rest.head?, isBlank c = false ∧ c ≠ '#') ∧
        Quotes rest "\x60\"a b c d e f g h...\x60" ∧
        (∃ c cs, rest = c :: cs ∧ c ≠ '(') ∧ ∃ e, parse before = .ok e := by
  have hparse : parse "f(1) # 2\n \"a b c d e f g h i j\"" =
      .error (.unexpectedTrailingText "\x60\"a b c d e f g h...\x60") := by cbv
  exact ⟨hparse, exists_error_place hparse⟩

end Egg.Syntax
