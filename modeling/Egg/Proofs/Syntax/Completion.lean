import Egg.Proofs.Syntax.Steps
import Mathlib

/-!
# Incomplete sources and hopeless ones

A source that is refused may still be the beginning of a program. That is so exactly if the parser
stalls at the end of the source, or at a text that lacks its second quote where an expression may
begin. Then a new line or a quote ends the last token, and what is left is to close all open calls.
At any other place the first character of the token already decides that the parser stalls there,
and no text behind it helps.

The error tells the two apart, since it quotes the source at the place where the parser stalls.
-/

namespace Egg.Syntax

open Egg.Text (isBlank)
open Grammar

/-- The error of a source that ended too early: its excerpt is empty, or shows a text that is not
closed where an expression should begin. -/
def ParseError.Incomplete (err : ParseError) : Prop :=
  err.found = "end of input" ∨
    ∃ found, err = .unexpectedInput found ∧ ['\x60', '"'] <+: found.toList

/-! ## What an error shows -/

theorem exists_excerpt_cons (c : Char) (cs : List Char) :
    ∃ tail, (excerpt (c :: cs)).toList = '\x60' :: c :: tail := by
  by_cases hlength : (c :: cs).length ≤ excerptLength
  · refine ⟨cs ++ ['\x60'], ?_⟩
    rw [excerpt, if_neg (by simp), if_pos hlength, String.toList_ofList]
    rfl
  · refine ⟨cs.take (excerptLength - 1) ++ ['.', '.', '.', '\x60'], ?_⟩
    rw [excerpt, if_neg (by simp), if_neg hlength, String.toList_ofList]
    rfl

theorem excerpt_eq_end_iff {cs : List Char} : excerpt cs = "end of input" ↔ cs = [] := by
  constructor
  · intro h
    cases cs with
    | nil => rfl
    | cons c cs =>
      obtain ⟨tail, htail⟩ := exists_excerpt_cons c cs
      rw [h] at htail
      cases htail
  · rintro rfl
    rfl

theorem quote_prefix_excerpt_iff {cs : List Char} :
    ['\x60', '"'] <+: (excerpt cs).toList ↔ cs.head? = some '"' := by
  cases cs with
  | nil => decide
  | cons c cs =>
    obtain ⟨tail, htail⟩ := exists_excerpt_cons c cs
    rw [htail]
    simp [List.cons_prefix_cons, eq_comm]

/-- An expression may begin here. -/
def Stand.ExpectsExpression (st : Stand) : Prop := ∀ e, st.expected ≠ .continuation e

/-- The error shows whether the source was incomplete. -/
theorem Stand.incomplete_iff {st : Stand} {cs : List Char} {err : ParseError}
    (h : st.verdict cs = .error err) :
    err.Incomplete ↔ cs = [] ∨ st.ExpectsExpression ∧ cs.head? = some '"' := by
  obtain ⟨expected, calls⟩ := st
  cases expected with
  | operand =>
    cases h
    simp [ParseError.Incomplete, ParseError.found, ExpectsExpression, excerpt_eq_end_iff,
      quote_prefix_excerpt_iff]
  | argument =>
    cases h
    simp [ParseError.Incomplete, ParseError.found, ExpectsExpression, excerpt_eq_end_iff,
      quote_prefix_excerpt_iff]
  | continuation e =>
    cases calls with
    | nil =>
      cases cs with
      | nil => cases h
      | cons c cs =>
        cases h
        simp [ParseError.Incomplete, ParseError.found, ExpectsExpression, excerpt_eq_end_iff]
    | cons call calls =>
      cases h
      simp [ParseError.Incomplete, ParseError.found, ExpectsExpression, excerpt_eq_end_iff]

/-- What the parser complains about does not depend on the text at which it stalls. -/
theorem Stand.exists_verdict_cons {st : Stand} {cs : List Char} {err : ParseError}
    (h : st.verdict cs = .error err) (c : Char) (cs' : List Char) :
    ∃ err', st.verdict (c :: cs') = .error err' ∧ err'.label = err.label := by
  obtain ⟨expected, calls⟩ := st
  cases expected with
  | operand =>
    cases h
    exact ⟨_, rfl, rfl⟩
  | argument =>
    cases h
    exact ⟨_, rfl, rfl⟩
  | continuation e =>
    cases calls with
    | nil =>
      cases cs with
      | nil => cases h
      | cons d cs =>
        cases h
        exact ⟨_, rfl, rfl⟩
    | cons call calls =>
      cases h
      exact ⟨_, rfl, rfl⟩

/-! ## Completing a source -/

theorem lexemes_nil : lexemes [] = [] := lexemes_of_skips_nil (skips_iff.mpr rfl)

/-- When an expression is complete, it remains to close the open calls. -/
theorem exists_parse_closers (e : Expr) (calls : List OpenCall) :
    ∃ e', Stand.parse ⟨.continuation e, calls⟩ (lexemes (List.replicate calls.length ')')) =
      .ok e' := by
  induction calls generalizing e with
  | nil => exact ⟨e, by rw [List.length_nil, List.replicate_zero, lexemes_nil]; rfl⟩
  | cons call calls ih =>
    obtain ⟨e', he'⟩ := ih (call.addArg e).close
    refine ⟨e', ?_⟩
    rw [List.length_cons, List.replicate_succ, lexemes_closing (skips_iff.mpr rfl)]
    exact (Stand.parse_cons_of_advance rfl _).trans he'

/-- Where an expression may begin, a leaf can stand and the open calls be closed behind it. -/
theorem Stand.ExpectsExpression.exists_parse_leaf {st : Stand} (h : st.ExpectsExpression)
    {cs start : List Char} {e : Expr} (hs : Skips cs start)
    (hl : Leaf start e (List.replicate st.calls.length ')')) :
    ∃ e', st.parse (lexemes cs) = .ok e' := by
  obtain ⟨expected, calls⟩ := st
  obtain ⟨e', he'⟩ := exists_parse_closers e calls
  refine ⟨e', ?_⟩
  rw [lexemes_leaf hs hl]
  cases expected with
  | operand => exact (Stand.parse_cons_of_advance rfl _).trans he'
  | argument => exact (Stand.parse_cons_of_advance rfl _).trans he'
  | continuation a => exact absurd rfl (h a)

theorem lexemes_append_newline {cs : List Char} (h : skipSeparators cs = []) (t : List Char) :
    lexemes (cs ++ '\n' :: t) = lexemes t :=
  lexemes_congr (skipSeparators_append_newline h t)

/-- At the end of the source there is always a way to go on: on a new line, with an expression if one
must come, and then with the open calls closed. -/
theorem Stand.exists_completion (st : Stand) {rest : List Char} (h : skipSeparators rest = []) :
    ∃ t e, Separates rest t ∧ st.parse (lexemes (rest ++ t)) = .ok e := by
  by_cases hst : st.ExpectsExpression
  · have hleaf : Leaf ('"' :: '"' :: List.replicate st.calls.length ')')
        (.text (String.ofList [])) (List.replicate st.calls.length ')') := .text (t := []) (by simp)
    have hs : Skips ('"' :: '"' :: List.replicate st.calls.length ')')
        ('"' :: '"' :: List.replicate st.calls.length ')') := skips_iff.mpr rfl
    obtain ⟨e, he⟩ := hst.exists_parse_leaf hs hleaf
    exact ⟨_, e, .newline rest _, by rw [lexemes_append_newline h]; exact he⟩
  · simp only [ExpectsExpression, not_forall, not_not] at hst
    obtain ⟨a, ha⟩ := hst
    obtain ⟨expected, calls⟩ := st
    obtain rfl : expected = .continuation a := ha
    obtain ⟨e, he⟩ := exists_parse_closers a calls
    exact ⟨_, e, .newline rest _, by rw [lexemes_append_newline h]; exact he⟩

/-- A text that lacks its second quote can be given one. -/
theorem Stand.ExpectsExpression.exists_completion {st : Stand} (h : st.ExpectsExpression)
    {rest cs : List Char} (hskip : skipSeparators rest = '"' :: cs) (hquote : '"' ∉ cs) :
    ∃ t e, Separates rest t ∧ st.parse (lexemes (rest ++ t)) = .ok e := by
  have hleaf : Leaf ('"' :: (cs ++ '"' :: List.replicate st.calls.length ')'))
      (.text (String.ofList cs)) (List.replicate st.calls.length ')') := .text hquote
  have hs : Skips (rest ++ '"' :: List.replicate st.calls.length ')')
      ('"' :: (cs ++ '"' :: List.replicate st.calls.length ')')) :=
    skips_iff.mpr (skipSeparators_append_of_eq_cons hskip _)
  obtain ⟨e, he⟩ := h.exists_parse_leaf hs hleaf
  refine ⟨_, e, ?_, he⟩
  rintro rfl
  cases hskip

/-! ## Places where nothing helps -/

/-- A complete expression is followed neither by a leaf nor by what is left of one. -/
theorem Stand.advance_continuation {a : Expr} {calls : List OpenCall} {c : Char} {cs : List Char}
    (hblank : isBlank c = false) (hc : c ≠ '(' ∧ c ≠ ')' ∧ c ≠ ',') :
    Stand.advance ⟨.continuation a, calls⟩ (readToken c cs).1 = none := by
  rcases readToken_cases hblank cs with
    ⟨rfl, -⟩ | ⟨rfl, -⟩ | ⟨rfl, -⟩ | ⟨e, rest, -, heq⟩ | ⟨-, -, heq⟩
  · exact absurd rfl hc.1
  · exact absurd rfl hc.2.1
  · exact absurd rfl hc.2.2
  · rw [heq]
    cases calls <;> rfl
  · rw [heq]
    cases calls <;> rfl

/-- The first character of a token decides that the parser stalls, except for a quote that may be
closed. -/
theorem Stand.advance_eq_none {st : Stand} {c : Char} {cs : List Char} (hblank : isBlank c = false)
    (h : st.advance (readToken c cs).1 = none) (hquote : ¬ (st.ExpectsExpression ∧ c = '"'))
    (cs' : List Char) : st.advance (readToken c cs').1 = none := by
  obtain ⟨expected, calls⟩ := st
  rcases readToken_cases hblank cs with
    ⟨rfl, -⟩ | ⟨rfl, -⟩ | ⟨rfl, -⟩ | ⟨e, rest, hleaf, heq⟩ | ⟨rfl, -, -⟩
  · exact h
  · exact h
  · exact h
  · obtain ⟨d, cs₁, hcons, hc⟩ := hleaf.head
    obtain ⟨rfl, rfl⟩ := List.cons.inj hcons
    rw [heq] at h
    cases expected with
    | operand => cases h
    | argument => cases h
    | continuation a => exact advance_continuation hblank hc
  · cases expected with
    | operand => exact absurd ⟨by simp [ExpectsExpression], rfl⟩ hquote
    | argument => exact absurd ⟨by simp [ExpectsExpression], rfl⟩ hquote
    | continuation a => exact advance_continuation hblank (by decide)

theorem Stand.Stalls.append {st : Stand} {rest cs : List Char} {c : Char} (h : st.Stalls rest)
    (hskip : skipSeparators rest = c :: cs) (hquote : ¬ (st.ExpectsExpression ∧ c = '"'))
    (t : List Char) : st.Stalls (rest ++ t) := by
  have hblank := ((skips_iff.mpr hskip).boundary c rfl).1
  have hskip' := skipSeparators_append_of_eq_cons hskip t
  refine stalls_of_firstLexeme (firstLexeme_of_skipSeparators hskip') ?_
  exact advance_eq_none hblank (h _ _ (firstLexeme_of_skipSeparators hskip)) hquote (cs ++ t)

/-- Where an expression may begin, the parser stalls only at a punctuation mark and at a text that is
not closed. -/
theorem Stand.Stalls.head_of_expectsExpression {st : Stand} {rest cs : List Char} {c : Char}
    (h : st.Stalls rest) (hst : st.ExpectsExpression) (hskip : skipSeparators rest = c :: cs) :
    c = '(' ∨ c = ')' ∨ c = ',' ∨ c = '"' ∧ '"' ∉ cs := by
  have hnone := h _ _ (firstLexeme_of_skipSeparators hskip)
  rcases readToken_cases ((skips_iff.mpr hskip).boundary c rfl).1 cs with
    ⟨hc, -⟩ | ⟨hc, -⟩ | ⟨hc, -⟩ | ⟨e, rest', -, heq⟩ | ⟨hc, hmem, -⟩
  · exact .inl hc
  · exact .inr (.inl hc)
  · exact .inr (.inr (.inl hc))
  · rw [heq] at hnone
    obtain ⟨expected, calls⟩ := st
    cases expected with
    | operand => cases hnone
    | argument => cases hnone
    | continuation a => exact absurd rfl (hst a)
  · exact .inr (.inr (.inr ⟨hc, hmem⟩))

/-- A quote at which the parser stalls, although a text could stand there, is the last one. -/
theorem Stand.Stalls.not_mem_quote {st : Stand} {rest cs : List Char} (h : st.Stalls rest)
    (hst : st.ExpectsExpression) (hskip : skipSeparators rest = '"' :: cs) : '"' ∉ cs := by
  rcases h.head_of_expectsExpression hst hskip with hc | hc | hc | ⟨-, hmem⟩
  · cases hc
  · cases hc
  · cases hc
  · exact hmem

/-! ## The two kinds of refused sources -/

theorem exists_parse_append_of_incomplete {s : String} {err : ParseError} (h : parse s = .error err)
    (hinc : err.Incomplete) : ∃ t e, parse (s ++ t) = .ok e := by
  obtain ⟨st, rest, hreads, hstall, hverdict⟩ := exists_stall s
  obtain ⟨t, e, ht, he⟩ : ∃ t e, Separates rest t ∧ st.parse (lexemes (rest ++ t)) = .ok e := by
    rcases (Stand.incomplete_iff (hverdict.symm.trans h)).mp hinc with hend | ⟨hst, hhead⟩
    · exact st.exists_completion hend
    · obtain ⟨cs, hcs⟩ := List.head?_eq_some_iff.mp hhead
      exact hst.exists_completion hcs (hstall.not_mem_quote hst hcs)
  exact ⟨String.ofList t, e, by rw [parse_append hreads ht, he]⟩

theorem parse_append_of_not_incomplete {s : String} {err : ParseError} (h : parse s = .error err)
    (hinc : ¬ err.Incomplete) (t : String) :
    ∃ err', parse (s ++ t) = .error err' ∧ err'.label = err.label := by
  obtain ⟨st, rest, hreads, hstall, hverdict⟩ := exists_stall s
  have herr : st.verdict (skipSeparators rest) = .error err := hverdict.symm.trans h
  rw [Stand.incomplete_iff herr, not_or] at hinc
  obtain ⟨c, cs, hcs⟩ := List.exists_cons_of_ne_nil hinc.1
  have hquote : ¬ (st.ExpectsExpression ∧ c = '"') := by
    rintro ⟨hst, rfl⟩
    exact hinc.2 ⟨hst, by rw [hcs]; rfl⟩
  have hseparates : Separates rest t.toList := by
    rintro rfl
    cases hcs
  have hskip := skipSeparators_append_of_eq_cons hcs t.toList
  obtain ⟨err', herr', hlabel⟩ := Stand.exists_verdict_cons herr c (cs ++ t.toList)
  refine ⟨err', ?_, hlabel⟩
  rw [← String.ofList_toList (s := t), parse_append hreads hseparates,
    (hstall.append hcs hquote t.toList).parse_eq, hskip, herr']

/-- A refused source can be completed to a program exactly if its error is one of an incomplete
source. Otherwise every source that begins with it is refused, and for the same reason. -/
theorem exists_completion_iff {s : String} {err : ParseError} (h : parse s = .error err) :
    ((∃ t e, parse (s ++ t) = .ok e) ↔ err.Incomplete) ∧
      (¬ err.Incomplete → ∀ t, ∃ err', parse (s ++ t) = .error err' ∧ err'.label = err.label) := by
  refine ⟨⟨?_, exists_parse_append_of_incomplete h⟩, parse_append_of_not_incomplete h⟩
  rintro ⟨t, e, ht⟩
  by_contra hinc
  obtain ⟨err', herr', -⟩ := parse_append_of_not_incomplete h hinc t
  rw [herr'] at ht
  cases ht

/-- A call that breaks off within a text can be completed, and one with a comma too many cannot. -/
theorem exists_completion_open_text :
    parse "f(12, \"a # b" = .error (.unexpectedInput "\x60\"a # b\x60") ∧
      (∃ t e, parse ("f(12, \"a # b" ++ t) = .ok e) ∧
      parse "f(12,, a" = .error (.unexpectedInput "\x60, a\x60") ∧
      ∀ t, ∃ err', parse ("f(12,, a" ++ t) = .error err' ∧ err'.label = "UnexpectedInput" := by
  have hopen : parse "f(12, \"a # b" = .error (.unexpectedInput "\x60\"a # b\x60") := by cbv
  have hcomma : parse "f(12,, a" = .error (.unexpectedInput "\x60, a\x60") := by cbv
  refine ⟨hopen, (exists_completion_iff hopen).1.mpr (.inr ⟨_, rfl, by decide⟩), hcomma,
    (exists_completion_iff hcomma).2 ?_⟩
  rintro (hend | ⟨found, hfound, hprefix⟩)
  · exact absurd hend (by decide)
  · cases hfound
    revert hprefix
    decide

end Egg.Syntax
