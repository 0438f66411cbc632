import Egg.Proofs.Syntax.Boundaries
import Egg.Proofs.Syntax.Parsing

/-!
# The parser, one token at a time

Between two tokens all that the parser remembers is what it expects and which calls are open: its
*stand*. A token either belongs there and leads to another stand, or the parser stalls. So a source
text splits into a part that the parser reads and a part at which it stalls, and its answer is decided
by the stand and by the text there (`exists_stall`).

The tokens that were read stay the same, whatever is put behind the text (`Reads.append`).
-/

namespace Egg.Syntax

open Egg.Text (isBlank)
open Grammar

/-- What the parser remembers between two tokens. -/
structure Stand where
  expected : Expectation
  calls : List OpenCall

namespace Stand

/-- Before the first token an expression is expected, and no call is open. -/
def start : Stand := ⟨.operand, []⟩

/-- The stand behind a token, if the token belongs there. -/
def advance : Stand → Token → Option Stand
  | ⟨.operand, calls⟩, .leaf e => some ⟨.continuation e, calls⟩
  | ⟨.argument, calls⟩, .leaf e => some ⟨.continuation e, calls⟩
  | ⟨.argument, call :: calls⟩, .closing => some ⟨.continuation call.close, calls⟩
  | ⟨.continuation e, calls⟩, .opening => some ⟨.argument, ⟨e, []⟩ :: calls⟩
  | ⟨.continuation e, call :: calls⟩, .comma => some ⟨.argument, call.addArg e :: calls⟩
  | ⟨.continuation e, call :: calls⟩, .closing =>
    some ⟨.continuation (call.addArg e).close, calls⟩
  | _, _ => none

/-- The answer of a parser that stalls before the text `cs`. -/
def verdict : Stand → (cs : List Char) → Except ParseError Expr
  | ⟨.continuation e, []⟩, [] => .ok e
  | ⟨.continuation _, []⟩, c :: cs => .error (.unexpectedTrailingText (excerpt (c :: cs)))
  | ⟨.continuation _, _ :: _⟩, cs => .error (.expectedCommaOrParen (excerpt cs))
  | ⟨.operand, _⟩, cs => .error (.unexpectedInput (excerpt cs))
  | ⟨.argument, _⟩, cs => .error (.unexpectedInput (excerpt cs))

/-- The program that is complete when the remaining lexemes are read. -/
def parse (st : Stand) (ls : List Lexeme) : Except ParseError Expr :=
  match readExpression st.expected st.calls ls with
  | .error e => .error e
  | .ok (e, []) => .ok e
  | .ok (_, l :: _) => .error (.unexpectedTrailingText (excerpt l.start))

theorem parse_nil (st : Stand) : st.parse [] = st.verdict [] := by
  obtain ⟨expected, calls⟩ := st
  cases expected with
  | operand => rfl
  | argument => rfl
  | continuation e => cases calls <;> rfl

/-- Only a complete expression at the end of the source, outside of all calls, is a program. -/
theorem verdict_eq_ok {st : Stand} {cs : List Char} {e : Expr} (h : st.verdict cs = .ok e) :
    st = ⟨.continuation e, []⟩ ∧ cs = [] := by
  unfold verdict at h
  split at h
  case h_1 =>
    cases h
    exact ⟨rfl, rfl⟩
  all_goals cases h

theorem parse_cons_of_advance {st st' : Stand} {l : Lexeme} (h : st.advance l.token = some st')
    (ls : List Lexeme) : st.parse (l :: ls) = st'.parse ls := by
  obtain ⟨token, start⟩ := l
  change st.advance token = some st' at h
  unfold advance at h
  split at h
  case h_7 => cases h
  all_goals
    cases h
    rfl

theorem parse_cons_of_stall {st : Stand} {l : Lexeme} (h : st.advance l.token = none)
    {c : Char} {cs : List Char} (hstart : l.start = c :: cs) (ls : List Lexeme) :
    st.parse (l :: ls) = st.verdict (c :: cs) := by
  obtain ⟨expected, calls⟩ := st
  obtain ⟨token, start⟩ := l
  obtain rfl : start = c :: cs := hstart
  cases expected with
  | operand =>
    cases token with
    | leaf e => cases h
    | opening | closing | comma | unclosed => rfl
  | argument =>
    cases token with
    | leaf e => cases h
    | closing =>
      cases calls with
      | nil => rfl
      | cons call calls => cases h
    | opening | comma | unclosed => rfl
  | continuation e =>
    cases token with
    | opening => cases h
    | closing | comma =>
      cases calls with
      | nil => rfl
      | cons call calls => cases h
    | leaf a | unclosed => cases calls <;> rfl

end Stand

theorem parse_eq_start_parse (s : String) : parse s = Stand.start.parse (lexemes s.toList) := rfl

/-! ## The first lexeme of a text -/

/-- `FirstLexeme cs l rest`: `cs` begins with the lexeme `l`, and `rest` is what is left behind it. -/
inductive FirstLexeme : List Char → Lexeme → List Char → Prop where
  | mk {cs start rest : List Char} {c : Char} {token : Token} (hs : Skips cs (c :: start))
      (ht : readToken c start = (token, rest)) : FirstLexeme cs ⟨token, c :: start⟩ rest

theorem firstLexeme_of_skipSeparators {cs start : List Char} {c : Char}
    (h : skipSeparators cs = c :: start) :
    FirstLexeme cs ⟨(readToken c start).1, c :: start⟩ (readToken c start).2 :=
  .mk (skips_iff.mpr h) rfl

namespace FirstLexeme

variable {cs rest : List Char} {l : Lexeme}

theorem lexemes_eq (h : FirstLexeme cs l rest) : lexemes cs = l :: lexemes rest := by
  obtain ⟨hs, ht⟩ := h
  rw [lexemes_of_skips hs, ht]

theorem token_eq {rest' : List Char} {l' : Lexeme} (h : FirstLexeme cs l rest)
    (h' : FirstLexeme cs l' rest') : l.token = l'.token := by
  have heq := h.lexemes_eq.symm.trans h'.lexemes_eq
  rw [(List.cons.inj heq).1]

theorem length_lt (h : FirstLexeme cs l rest) : rest.length < cs.length := by
  cases h with
  | @mk start _ c _ hs ht =>
    have hskip := length_skipSeparators_le cs
    rw [skips_iff.mp hs, List.length_cons] at hskip
    have htoken := length_readToken_le c start
    rw [ht] at htoken
    exact Nat.lt_of_le_of_lt htoken hskip

/-- A lexeme that is complete stays the first one when something is put behind the text. -/
theorem append (h : FirstLexeme cs l rest) (hclosed : l.token ≠ .unclosed) {t : List Char}
    (ht : Separates rest t) : FirstLexeme (cs ++ t) ⟨l.token, l.start ++ t⟩ (rest ++ t) := by
  cases h with
  | @mk start _ c token hs hread =>
    have hs' : Skips (cs ++ t) (c :: (start ++ t)) :=
      skips_iff.mpr (skipSeparators_append_of_eq_cons (skips_iff.mp hs) t)
    refine .mk hs' ?_
    rcases readToken_mark_or (hs.boundary c rfl).1 start with
      ⟨mark, hmark⟩ | ⟨e, rest', hleaf, heq⟩ | ⟨-, -, heq⟩
    · cases (hmark start).symm.trans hread
      exact hmark _
    · cases heq.symm.trans hread
      exact readToken_leaf (hleaf.append ht)
    · cases heq.symm.trans hread
      exact absurd rfl hclosed

end FirstLexeme

/-! ## Reading -/

/-- `Reads st cs st' rest`: from the stand `st` before `cs`, the parser reads tokens up to the stand
`st'` before `rest`. -/
inductive Reads : Stand → List Char → Stand → List Char → Prop where
  | done {st : Stand} {cs : List Char} : Reads st cs st cs
  | step {st st₁ st' : Stand} {cs cs₁ rest : List Char} {l : Lexeme} (hl : FirstLexeme cs l cs₁)
      (ha : st.advance l.token = some st₁) (h : Reads st₁ cs₁ st' rest) : Reads st cs st' rest

/-- The first token of `cs`, if there is one, does not belong there. -/
def Stand.Stalls (st : Stand) (cs : List Char) : Prop :=
  ∀ l rest, FirstLexeme cs l rest → st.advance l.token = none

/-- Whether the parser stalls is told by one first lexeme, if there is one. -/
theorem Stand.stalls_of_firstLexeme {st : Stand} {cs rest : List Char} {l : Lexeme}
    (hl : FirstLexeme cs l rest) (h : st.advance l.token = none) : st.Stalls cs := by
  intro l' rest' hl'
  rw [← hl.token_eq hl']
  exact h

theorem Reads.parse_eq {st st' : Stand} {cs rest : List Char} (h : Reads st cs st' rest) :
    st.parse (lexemes cs) = st'.parse (lexemes rest) := by
  induction h with
  | done => rfl
  | step hl ha _ ih => rw [hl.lexemes_eq, Stand.parse_cons_of_advance ha, ih]

theorem Stand.Stalls.parse_eq {st : Stand} {cs : List Char} (h : st.Stalls cs) :
    st.parse (lexemes cs) = st.verdict (skipSeparators cs) := by
  cases hskip : skipSeparators cs with
  | nil => rw [lexemes_of_skips_nil (skips_iff.mpr hskip), parse_nil]
  | cons c start =>
    have hl := firstLexeme_of_skipSeparators hskip
    rw [hl.lexemes_eq]
    exact parse_cons_of_stall (h _ _ hl) rfl _

/-- Each token leaves less text, so the parser stalls sooner or later. -/
theorem Stand.exists_stall (st : Stand) (cs : List Char) :
    ∃ st' rest, Reads st cs st' rest ∧ st'.Stalls rest := by
  induction hn : cs.length using Nat.strongRecOn generalizing st cs with
  | ind n ih =>
    by_cases hstall : st.Stalls cs
    · exact ⟨st, cs, .done, hstall⟩
    · simp only [Stalls, not_forall] at hstall
      obtain ⟨l, cs₁, hl, hadvance⟩ := hstall
      obtain ⟨st₁, ha⟩ := Option.ne_none_iff_exists'.mp hadvance
      obtain ⟨st', rest, hreads, hstall'⟩ := ih _ (hn ▸ hl.length_lt) st₁ cs₁ rfl
      exact ⟨st', rest, .step hl ha hreads, hstall'⟩

/-- The parser reads a source up to a place where it stalls, and its answer is the verdict there. -/
theorem exists_stall (s : String) : ∃ st rest, Reads .start s.toList st rest ∧ st.Stalls rest ∧
    parse s = st.verdict (skipSeparators rest) := by
  obtain ⟨st, rest, hreads, hstall⟩ := Stand.start.exists_stall s.toList
  refine ⟨st, rest, hreads, hstall, ?_⟩
  rw [parse_eq_start_parse, hreads.parse_eq, hstall.parse_eq]

/-! ## Putting text behind what was read -/

/-- An unclosed text belongs nowhere. -/
theorem Stand.ne_unclosed_of_advance {st st' : Stand} {token : Token}
    (h : st.advance token = some st') : token ≠ .unclosed := by
  rintro rfl
  obtain ⟨expected, calls⟩ := st
  cases expected <;> cases calls <;> cases h

/-- Nothing is read from an empty text. -/
theorem Reads.eq_nil {st st' : Stand} {rest : List Char} (h : Reads st [] st' rest) : rest = [] := by
  cases h with
  | done => rfl
  | step hl => exact absurd hl.length_lt (Nat.not_lt_zero _)

/-- What was read of a text is read again when something is put behind it that leaves the last token
alone. -/
theorem Reads.append {st st' : Stand} {cs rest t : List Char} (h : Reads st cs st' rest)
    (ht : Separates rest t) : Reads st (cs ++ t) st' (rest ++ t) := by
  induction h with
  | done => exact .done
  | @step st st₁ st' cs cs₁ rest l hl ha h ih =>
    have ht₁ : Separates cs₁ t := by
      rintro rfl
      exact ht h.eq_nil
    exact .step (hl.append (Stand.ne_unclosed_of_advance ha) ht₁) ha (ih ht)

theorem parse_append {s : String} {st : Stand} {rest t : List Char}
    (h : Reads .start s.toList st rest) (ht : Separates rest t) :
    parse (s ++ String.ofList t) = st.parse (lexemes (rest ++ t)) := by
  rw [parse_eq_start_parse, String.toList_append, String.toList_ofList, (h.append ht).parse_eq]

end Egg.Syntax
