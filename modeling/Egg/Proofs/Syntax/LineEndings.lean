import Egg.Proofs.Syntax.CanonicalForm
import Egg.Proofs.Syntax.Completion
import Egg.Proofs.Text.LineSplitting
import Mathlib

/-!
# Line endings in programs

A file is run with all its line endings made plain and without the one at its end, and its tree is
printed from the text as it is. Both are the same program (`CommandLine.run_and_parse_read_alike`).
For a carriage return in front of a line feed is a blank between tokens, does not count in a comment,
and is left out of the texts; and the line feed at the end of a source closes at most a comment.
-/

namespace Egg

open Egg.Text (isBlank dropReturns dropReturns_cons_of_ne)

/-- The text with every `\r\n` in it made a `\n`. -/
def Text.withPlainBreaks (s : String) : String := String.ofList (dropReturns s.toList)

/-! ## Trees with other texts -/

namespace Expr

mutual

/-- The tree with `g` applied to each of its texts. -/
def mapTexts (g : String → String) : Expr → Expr
  | .number n => .number n
  | .text s => .text (g s)
  | .word w => .word w
  | .apply f args => .apply (f.mapTexts g) (mapTextsList g args)

/-- The trees with `g` applied to each of their texts. -/
def mapTextsList (g : String → String) : List Expr → List Expr
  | [] => []
  | e :: es => e.mapTexts g :: mapTextsList g es

end

theorem mapTextsList_eq_map (g : String → String) (es : List Expr) :
    mapTextsList g es = es.map (mapTexts g) := by
  induction es with
  | nil => rfl
  | cons e es ih => rw [mapTextsList, ih, List.map_cons]

end Expr

namespace Syntax

open Grammar

variable (g : String → String)

def Token.mapTexts : Token → Token
  | .leaf e => .leaf (e.mapTexts g)
  | .opening => .opening
  | .closing => .closing
  | .comma => .comma
  | .unclosed => .unclosed

def OpenCall.mapTexts (call : OpenCall) : OpenCall :=
  ⟨call.operator.mapTexts g, call.args.map (Expr.mapTexts g)⟩

theorem OpenCall.mapTexts_close (call : OpenCall) :
    (call.mapTexts g).close = call.close.mapTexts g := by
  simp [close, mapTexts, Expr.mapTexts, Expr.mapTextsList_eq_map]

theorem OpenCall.mapTexts_addArg (call : OpenCall) (e : Expr) :
    (call.mapTexts g).addArg (e.mapTexts g) = (call.addArg e).mapTexts g := by
  simp [addArg, mapTexts]

def Expectation.mapTexts : Expectation → Expectation
  | .operand => .operand
  | .argument => .argument
  | .continuation e => .continuation (e.mapTexts g)

namespace Stand

def mapTexts (st : Stand) : Stand :=
  ⟨st.expected.mapTexts g, st.calls.map (OpenCall.mapTexts g)⟩

/-- Which tokens belong to a stand does not depend on texts. -/
theorem advance_mapTexts (st : Stand) (token : Token) :
    (st.mapTexts g).advance (token.mapTexts g) = (st.advance token).map (mapTexts g) := by
  obtain ⟨expected, calls⟩ := st
  cases expected with
  | operand => cases token <;> rfl
  | argument =>
    cases token with
    | leaf | opening | comma | unclosed => cases calls <;> rfl
    | closing =>
      cases calls with
      | nil => rfl
      | cons call calls =>
        simp only [mapTexts, List.map_cons, Expectation.mapTexts, Token.mapTexts, advance,
          OpenCall.mapTexts_close, Option.map_some]
  | continuation e =>
    cases token with
    | leaf | opening | unclosed => cases calls <;> rfl
    | closing | comma =>
      cases calls with
      | nil => rfl
      | cons call calls =>
        simp only [mapTexts, List.map_cons, Expectation.mapTexts, Token.mapTexts, advance,
          OpenCall.mapTexts_addArg, OpenCall.mapTexts_close, Option.map_some]

end Stand

/-- Two answers of the parser: a tree and the same tree with other texts, or two refusals for the same
reason. -/
inductive SameReading : Except ParseError Expr → Except ParseError Expr → Prop where
  | tree (e : Expr) : SameReading (.ok e) (.ok (e.mapTexts g))
  | refusal {x x' : ParseError} (h : x'.label = x.label) : SameReading (.error x) (.error x')

variable {g}

/-- The answer at a place depends on the stand, and on whether the source ends there. -/
theorem Stand.verdict_mapTexts {st : Stand} {cs cs' : List Char} (h : cs = [] ↔ cs' = []) :
    SameReading g (st.verdict cs) ((st.mapTexts g).verdict cs') := by
  obtain ⟨expected, calls⟩ := st
  cases expected with
  | operand | argument => exact .refusal rfl
  | continuation e =>
    cases calls with
    | cons call calls => exact .refusal rfl
    | nil =>
      cases cs with
      | nil =>
        obtain rfl := h.mp rfl
        exact .tree e
      | cons c cs =>
        cases cs' with
        | nil => cases h.mpr rfl
        | cons c' cs' => exact .refusal rfl

/-! ## Tokens without carriage returns -/

theorem skipSeparatorsFrom_dropReturns (b : Bool) (cs : List Char) :
    skipSeparatorsFrom b (dropReturns cs) = dropReturns (skipSeparatorsFrom b cs) := by
  induction cs generalizing b with
  | nil => rfl
  | cons c cs ih =>
    by_cases hdrop : c = '\r' ∧ cs.head? = some '\n'
    · -- the carriage return is part of the comment, or else a blank
      have hskip : skipSeparatorsFrom b (c :: cs) = skipSeparatorsFrom b cs := by
        rw [hdrop.1]
        cases b <;> rfl
      rw [dropReturns, if_pos hdrop, ih, hskip]
    · have hkeep : dropReturns (c :: cs) = c :: dropReturns cs := by
        rw [dropReturns, if_neg hdrop]
      rw [hkeep]
      cases b with
      | true => exact ih (c != '\n')
      | false =>
        rw [skipSeparatorsFrom, skipSeparatorsFrom]
        split
        · exact ih false
        · split
          · exact ih true
          · exact hkeep.symm

theorem skipSeparators_dropReturns (cs : List Char) :
    skipSeparators (dropReturns cs) = dropReturns (skipSeparators cs) :=
  skipSeparatorsFrom_dropReturns false cs

/-- A word or a number that ends in front of `rest` ends there without carriage returns too. -/
theorem boundary_dropReturns {p : Char → Bool} (hp : p '\n' = false) {rest : List Char}
    (h : ∀ c ∈ rest.head?, p c = false) : ∀ c ∈ (dropReturns rest).head?, p c = false := by
  intro c hc
  rcases Text.head?_dropReturns rest with hhead | ⟨-, hhead⟩
  · exact h c (hhead ▸ hc)
  · obtain rfl : '\n' = c := by simpa [hhead] using hc
    exact hp

theorem Grammar.Leaf.dropReturns {cs rest : List Char} {e : Expr} (h : Leaf cs e rest) :
    Leaf (dropReturns cs) (e.mapTexts Text.withPlainBreaks) (Text.dropReturns rest) := by
  cases h with
  | @text t rest ht =>
    have hquote : ('"' :: rest).head? ≠ some '\n' := by simp
    rw [dropReturns_cons_of_ne (by decide), Text.dropReturns_append hquote,
      dropReturns_cons_of_ne (by decide), Expr.mapTexts, Text.withPlainBreaks, String.toList_ofList]
    exact .text fun hmem => ht (Text.mem_of_mem_dropReturns hmem)
  | @number digits rest hnumber =>
    have hreturn : '\r' ∉ digits := by
      intro hmem
      cases hnumber.digit _ hmem
    rw [Text.dropReturns_of_not_mem hreturn]
    exact .number ⟨hnumber.ne_nil, hnumber.digit, boundary_dropReturns rfl hnumber.boundary⟩
  | @word w rest hword hn =>
    have hreturn : '\r' ∉ w := by
      intro hmem
      cases hword.wordChar _ hmem
    rw [Text.dropReturns_of_not_mem hreturn]
    exact hword.leaf ⟨hword.ne_nil, hword.wordChar, boundary_dropReturns rfl hword.boundary⟩ hn

theorem FirstLexeme.dropReturns {cs rest : List Char} {l : Lexeme} (h : FirstLexeme cs l rest) :
    FirstLexeme (dropReturns cs) ⟨l.token.mapTexts Text.withPlainBreaks, Text.dropReturns l.start⟩
      (Text.dropReturns rest) := by
  cases h with
  | @mk start _ c token hs hread =>
    have hblank := (hs.boundary c rfl).1
    have hne : c ≠ '\r' := by
      rintro rfl
      cases hblank
    have hs' : Skips (Text.dropReturns cs) (c :: Text.dropReturns start) := by
      rw [skips_iff, skipSeparators_dropReturns, skips_iff.mp hs, dropReturns_cons_of_ne hne]
    simp only [dropReturns_cons_of_ne hne]
    refine .mk hs' ?_
    rcases readToken_cases hblank start with
      ⟨rfl, heq⟩ | ⟨rfl, heq⟩ | ⟨rfl, heq⟩ | ⟨e, rest', hleaf, heq⟩ | ⟨rfl, hmem, heq⟩
    · cases heq.symm.trans hread
      rfl
    · cases heq.symm.trans hread
      rfl
    · cases heq.symm.trans hread
      rfl
    · cases heq.symm.trans hread
      have hleaf' := hleaf.dropReturns
      rw [dropReturns_cons_of_ne hne] at hleaf'
      exact readToken_leaf hleaf'
    · cases heq.symm.trans hread
      exact readToken_unclosed fun hmem' => hmem (Text.mem_of_mem_dropReturns hmem')

theorem Reads.dropReturns {st st' : Stand} {cs rest : List Char} (h : Reads st cs st' rest) :
    Reads (st.mapTexts Text.withPlainBreaks) (dropReturns cs) (st'.mapTexts Text.withPlainBreaks)
      (Text.dropReturns rest) := by
  induction h with
  | done => exact .done
  | step hl ha _ ih =>
    refine .step hl.dropReturns ?_ ih
    rw [Stand.advance_mapTexts, ha]
    rfl

theorem Stand.Stalls.dropReturns {st : Stand} {cs : List Char} (h : st.Stalls cs) :
    (st.mapTexts Text.withPlainBreaks).Stalls (dropReturns cs) := by
  cases hskip : skipSeparators cs with
  | nil =>
    have hnil : skipSeparators (Text.dropReturns cs) = [] := by
      rw [skipSeparators_dropReturns, hskip]
      rfl
    intro l rest hl
    cases hl with
    | mk hs _ => cases hnil.symm.trans (skips_iff.mp hs)
  | cons c start =>
    have hl := firstLexeme_of_skipSeparators hskip
    refine stalls_of_firstLexeme hl.dropReturns ?_
    rw [advance_mapTexts, h _ _ hl]
    rfl

theorem sameReading_dropReturns (s : String) :
    SameReading Text.withPlainBreaks (parse s) (parse (Text.withPlainBreaks s)) := by
  obtain ⟨st, rest, hreads, hstall, hverdict⟩ := exists_stall s
  have hparse : parse (Text.withPlainBreaks s) =
      (st.mapTexts Text.withPlainBreaks).verdict (skipSeparators (dropReturns rest)) := by
    rw [parse_eq_start_parse, Text.withPlainBreaks, String.toList_ofList, ← hstall.dropReturns.parse_eq]
    exact hreads.dropReturns.parse_eq
  rw [hverdict, hparse, skipSeparators_dropReturns]
  exact Stand.verdict_mapTexts Text.dropReturns_eq_nil.symm

/-! ## The last line feed -/

/-- A line feed at the end of a source does not change the reason why it is refused. -/
theorem exists_error_append_newline {s : String} {err : ParseError} (h : parse s = .error err) :
    ∃ err', parse (s ++ "\n") = .error err' ∧ err'.label = err.label := by
  obtain ⟨st, rest, hreads, hstall, hverdict⟩ := exists_stall s
  have hparse : parse (s ++ "\n") = st.parse (lexemes (rest ++ ['\n'])) :=
    parse_append hreads (.newline rest [])
  cases hskip : skipSeparators rest with
  | nil =>
    rw [hskip, h] at hverdict
    refine ⟨err, ?_, rfl⟩
    rw [hparse, lexemes_append_newline hskip, lexemes_nil, Stand.parse_nil, ← hverdict]
  | cons c cs =>
    have hskip' := skipSeparators_append_of_eq_cons hskip ['\n']
    have hstall' : st.Stalls (rest ++ ['\n']) := by
      by_cases hquote : st.ExpectsExpression ∧ c = '"'
      · obtain ⟨hst, rfl⟩ := hquote
        have hmem : '"' ∉ cs ++ ['\n'] := by simpa using hstall.not_mem_quote hst hskip
        refine Stand.stalls_of_firstLexeme (firstLexeme_of_skipSeparators hskip') ?_
        rw [readToken_unclosed hmem]
        by_contra hadvance
        obtain ⟨st', ha⟩ := Option.ne_none_iff_exists'.mp hadvance
        exact Stand.ne_unclosed_of_advance ha rfl
      · exact hstall.append hskip hquote ['\n']
    obtain ⟨err', herr', hlabel⟩ := Stand.exists_verdict_cons (hverdict.symm.trans h) c (cs ++ ['\n'])
    refine ⟨err', ?_, hlabel⟩
    rw [hparse, hstall'.parse_eq, hskip', herr']

/-- An answer to a source with a line feed at its end is an answer to the source. -/
theorem SameReading.of_append_newline {answer : Except ParseError Expr} {s : String}
    (h : SameReading g answer (parse (s ++ "\n"))) : SameReading g answer (parse s) := by
  cases hs : parse s with
  | ok e => rwa [parse_append_newline hs] at h
  | error err =>
    obtain ⟨err', herr', hlabel⟩ := exists_error_append_newline hs
    rw [herr'] at h
    cases h with
    | refusal hsame => exact .refusal (hlabel.symm.trans hsame)

end Syntax

namespace CommandLine

open Syntax

theorem sameReading_programOf (text : String) :
    SameReading Text.withPlainBreaks (parse text) (parse (programOf text)) := by
  have hread := sameReading_dropReturns text
  rw [Text.withPlainBreaks] at hread
  rcases Text.dropReturns_eq_withPlainLineEndings text.toList with heq | heq
  · rwa [heq] at hread
  · rw [heq, String.ofList_append] at hread
    exact hread.of_append_newline

/-- For a file that holds a text, `run` runs the lines of the text, without their endings and with line
feeds between them, and `parse` prints the tree of the text as it is. If one of the two is a program,
so is the other, and its tree is the same but for the texts in it, where each `\r\n` is a `\n` in what
is run. If both are refused, the reason is the same. -/
theorem run_and_parse_read_alike {files : String → FileRead} {path text : String}
    (hfile : (files path).text path = .ok text) :
    (∀ steps input showResult, Command.reply steps files input (.run path showResult) =
      runReply steps (programOf text) showResult) ∧
    (∀ steps input dump, Command.reply steps files input (.parse path dump) =
      some (parseReply text dump)) ∧
    (∃ ls, Text.Lines text.toList ls ∧
      programOf text = String.ofList (['\n'].intercalate (ls.map Text.withoutEnding))) ∧
    ((∃ e, parse (programOf text) = .ok e) ↔ ∃ e, parse text = .ok e) ∧
    (∀ e, parse text = .ok e →
      parse (programOf text) = .ok (e.mapTexts Text.withPlainBreaks)) ∧
    ∀ x x', parse text = .error x → parse (programOf text) = .error x' → x'.label = x.label := by
  have hread := sameReading_programOf text
  obtain ⟨ls, hls⟩ := Text.exists_lines text.toList
  refine ⟨fun steps input showResult => ?_, fun steps input dump => ?_, ⟨ls, hls, ?_⟩, ?_⟩
  · simp only [Command.reply, hfile]
  · simp only [Command.reply, hfile]
  · rw [programOf, Text.withPlainLineEndings, hls.lines_eq, Text.unlines]
  · generalize parse text = answer, parse (programOf text) = answer' at hread ⊢
    cases hread with
    | tree e => simp
    | refusal h => simpa using h

/-- A text and a comment over two lines of a file. -/
theorem run_and_parse_read_alike_text_over_two_lines :
    parse "f(\"a\r\nb\", # one\r\n x)\r\n" = .ok (.apply (.word "f") [.text "a\r\nb", .word "x"]) ∧
      Command.reply 10 (fun _ => .contents "f(\"a\r\nb\", # one\r\n x)\r\n".toUTF8) .empty
        (.run "f.egg" false) = runReply 10 "f(\"a\nb\", # one\n x)" false ∧
      parse "f(\"a\nb\", # one\n x)" = .ok (.apply (.word "f") [.text "a\nb", .word "x"]) := by
  have hparse : parse "f(\"a\r\nb\", # one\r\n x)\r\n" =
      .ok (.apply (.word "f") [.text "a\r\nb", .word "x"]) := by cbv
  have hprogram : programOf "f(\"a\r\nb\", # one\r\n x)\r\n" = "f(\"a\nb\", # one\n x)" := by cbv
  let files : String → FileRead := fun _ => .contents "f(\"a\r\nb\", # one\r\n x)\r\n".toUTF8
  have hfile : (files "f.egg").text "f.egg" = .ok "f(\"a\r\nb\", # one\r\n x)\r\n" :=
    text_contents_toUTF8 _ _
  obtain ⟨hrun, -, -, -, htree, -⟩ := run_and_parse_read_alike hfile
  rw [hprogram] at hrun htree
  refine ⟨hparse, hrun 10 .empty false, ?_⟩
  exact htree _ hparse

end CommandLine

end Egg
