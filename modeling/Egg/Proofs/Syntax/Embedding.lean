import Egg.Proofs.Syntax.CanonicalForm
import Egg.Proofs.Syntax.Completion
import Mathlib

/-!
# Programs as arguments

A program, with a line break behind it, can stand as an argument of a call: the parser reads the same
tokens there, whatever calls are open (`Reads.within`), and the line break ends the last token and a
comment that the program may end with. So several programs can be made the arguments of one call
(`parse_sequenceSource`).
-/

namespace Egg.Syntax

open Grammar

/-! ## Open calls around a stand -/

/-- The stand with more calls open around it. -/
def Stand.within (st : Stand) (outer : List OpenCall) : Stand :=
  { st with calls := st.calls ++ outer }

theorem Stand.advance_within {st st' : Stand} {token : Token} (h : st.advance token = some st')
    (outer : List OpenCall) : (st.within outer).advance token = some (st'.within outer) := by
  unfold advance at h
  split at h
  case h_7 => cases h
  all_goals
    cases h
    rfl

theorem Reads.within {st st' : Stand} {cs rest : List Char} (h : Reads st cs st' rest)
    (outer : List OpenCall) : Reads (st.within outer) cs (st'.within outer) rest := by
  induction h with
  | done => exact .done
  | step hl ha _ ih => exact .step hl (Stand.advance_within ha outer) ih

theorem Reads.trans {st₁ st₂ st₃ : Stand} {cs₁ cs₂ cs₃ : List Char} (h₁₂ : Reads st₁ cs₁ st₂ cs₂)
    (h₂₃ : Reads st₂ cs₂ st₃ cs₃) : Reads st₁ cs₁ st₃ cs₃ := by
  induction h₁₂ with
  | done => exact h₂₃
  | step hl ha _ ih => exact .step hl ha (ih h₂₃)

/-- What begins where an expression must follow can also begin an argument. -/
theorem Reads.argument {calls calls' : List OpenCall} {e : Expr} {cs rest : List Char}
    (h : Reads ⟨.operand, calls⟩ cs ⟨.continuation e, calls'⟩ rest) :
    Reads ⟨.argument, calls⟩ cs ⟨.continuation e, calls'⟩ rest := by
  cases h with
  | @step _ st₁ _ _ cs₁ _ l hl ha h =>
    have hleaf : Stand.advance ⟨.argument, calls⟩ l.token = some st₁ := by
      revert ha
      cases l.token with
      | leaf a => exact id
      | opening | closing | comma | unclosed => exact nofun
    exact .step hl hleaf h

/-! ## Arguments -/

section Arguments

variable {source : String} {e : Expr} {call : OpenCall} {calls : List OpenCall} {t : List Char}

/-- A program is read as an argument up to the line break behind it. -/
theorem reads_argument (h : parse source = .ok e) (calls : List OpenCall) (t : List Char) :
    ∃ rest, skipSeparators rest = [] ∧
      Reads ⟨.argument, calls⟩ (source.toList ++ '\n' :: t) ⟨.continuation e, calls⟩
        (rest ++ '\n' :: t) := by
  obtain ⟨st, rest, hreads, -, hverdict⟩ := exists_stall source
  obtain ⟨rfl, hskip⟩ := Stand.verdict_eq_ok (hverdict.symm.trans h)
  refine ⟨rest, hskip, Reads.argument ?_⟩
  exact (hreads.append (.newline rest t)).within calls

/-- Behind the line break only the token matters that stands there. -/
theorem firstLexeme_append_newline {rest : List Char} {c : Char} (h : skipSeparators rest = [])
    (hc : skipSeparators (c :: t) = c :: t) :
    FirstLexeme (rest ++ '\n' :: c :: t) ⟨(readToken c t).1, c :: t⟩ (readToken c t).2 := by
  apply firstLexeme_of_skipSeparators
  rw [skipSeparators_append_newline h, hc]

theorem reads_argument_comma (h : parse source = .ok e) :
    Reads ⟨.argument, call :: calls⟩ (source.toList ++ '\n' :: ',' :: t)
      ⟨.argument, call.addArg e :: calls⟩ t := by
  obtain ⟨rest, hskip, hreads⟩ := reads_argument h (call :: calls) (',' :: t)
  exact hreads.trans (.step (firstLexeme_append_newline hskip rfl) rfl .done)

theorem reads_argument_closing (h : parse source = .ok e) :
    Reads ⟨.argument, call :: calls⟩ (source.toList ++ '\n' :: ')' :: t)
      ⟨.continuation (call.addArg e).close, calls⟩ t := by
  obtain ⟨rest, hskip, hreads⟩ := reads_argument h (call :: calls) (')' :: t)
  exact hreads.trans (.step (firstLexeme_append_newline hskip rfl) rfl .done)

/-- Programs with commas between them are the remaining arguments of the innermost open call. -/
theorem reads_arguments {sources : List String} {es : List Expr}
    (h : List.Forall₂ (fun source e => parse source = .ok e) sources es) (hne : sources ≠ [])
    (call : OpenCall) (calls : List OpenCall) (t : List Char) :
    Reads ⟨.argument, call :: calls⟩ (("\n,".intercalate sources).toList ++ '\n' :: ')' :: t)
      ⟨.continuation (.apply call.operator (call.args.reverse ++ es)), calls⟩ t := by
  induction h generalizing call with
  | nil => exact absurd rfl hne
  | @cons source e sources es hparse hrest ih =>
    cases hrest with
    | nil =>
      have hlast : (call.addArg e).close = .apply call.operator (call.args.reverse ++ [e]) := by
        simp [OpenCall.close, OpenCall.addArg]
      rw [String.intercalate_singleton, ← hlast]
      exact reads_argument_closing hparse
    | @cons source' e' sources es hparse' hrest =>
      have htext : ("\n,".intercalate (source :: source' :: sources)).toList ++ '\n' :: ')' :: t =
          source.toList ++ '\n' :: ',' ::
            (("\n,".intercalate (source' :: sources)).toList ++ '\n' :: ')' :: t) := by
        simp [String.intercalate_cons_cons]
      have hargs : call.args.reverse ++ e :: e' :: es =
          (call.addArg e).args.reverse ++ e' :: es := by
        simp [OpenCall.addArg]
      rw [htext, hargs]
      exact (reads_argument_comma hparse).trans (ih (by simp) (call.addArg e))

end Arguments

/-! ## Programs in sequence -/

/-- One source text for several programs, which are evaluated one after the other. -/
def sequenceSource (sources : List String) : String :=
  "do(" ++ "\n,".intercalate sources ++ "\n)"

theorem leaf_do (cs : List Char) : Leaf ('d' :: 'o' :: '(' :: cs) (.word "do") ('(' :: cs) := by
  have hword : IsWord ['d', 'o'] ('(' :: cs) := by
    refine ⟨by simp, fun c hc => ?_, fun c hc => ?_⟩
    · rcases List.mem_pair.mp hc with rfl | rfl <;> rfl
    · obtain rfl : '(' = c := by simpa using hc
      rfl
  refine Leaf.word hword fun digits rest heq hnumber => ?_
  cases digits with
  | nil => exact hnumber.ne_nil rfl
  | cons d digits =>
    have hdigit := hnumber.digit d List.mem_cons_self
    obtain rfl : 'd' = d := (List.cons.inj heq).1
    cases hdigit

theorem parse_sequenceSource {sources : List String} {es : List Expr}
    (h : List.Forall₂ (fun source e => parse source = .ok e) sources es) (hne : sources ≠ []) :
    parse (sequenceSource sources) = .ok (.apply (.word "do") es) := by
  have htext : (sequenceSource sources).toList =
      'd' :: 'o' :: '(' :: (("\n,".intercalate sources).toList ++ '\n' :: ')' :: []) := by
    simp [sequenceSource]
  have hdo : Skips (sequenceSource sources).toList (sequenceSource sources).toList := by
    rw [htext]
    exact skips_iff.mpr rfl
  have hopen : ∀ cs, Skips ('(' :: cs) ('(' :: cs) := fun cs => skips_iff.mpr rfl
  have hreads := reads_arguments h hne ⟨.word "do", []⟩ [] []
  rw [parse_eq_start_parse, lexemes_leaf hdo (htext ▸ leaf_do _), lexemes_opening (hopen _)]
  calc
    Stand.start.parse (_ :: _ :: lexemes _) =
        Stand.parse ⟨.argument, [⟨.word "do", []⟩]⟩ (lexemes _) := by
      rw [Stand.parse_cons_of_advance rfl, Stand.parse_cons_of_advance rfl]
    _ = Stand.parse ⟨.continuation (.apply (.word "do") es), []⟩ (lexemes []) := hreads.parse_eq
    _ = .ok (.apply (.word "do") es) := by rw [lexemes_nil]; rfl

end Egg.Syntax
