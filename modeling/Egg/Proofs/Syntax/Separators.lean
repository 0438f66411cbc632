import Egg.Proofs.Syntax.Steps
import Mathlib

/-!
# Separators around a program

Separators in front of a source are skipped before its first token. So the source is read as it is
without them, and where it is refused the same text is quoted. Separators behind a program are
skipped at its end, unless its last token goes on with them, so they have to begin with a blank. The
program may also end within a comment. Then the comment goes on up to the first line break among the
separators, and what stands behind the line break are separators again.
-/

namespace Egg.Syntax

open Egg.Text (isBlank)
open Grammar

/-! ## Separators alone -/

/-- Blanks and comments, each of which is ended by a line break. -/
inductive Grammar.Separators : List Char → Prop where
  | nil : Separators []
  | blank {c : Char} {cs : List Char} (hc : isBlank c = true) (h : Separators cs) :
      Separators (c :: cs)
  | comment {body cs : List Char} (hb : '\n' ∉ body) (h : Separators cs) :
      Separators ('#' :: (body ++ '\n' :: cs))

/-- Separators at the end of a source, where the last comment need not be ended. -/
inductive Grammar.FinalSeparators : List Char → Prop where
  | ended {cs : List Char} (h : Separators cs) : FinalSeparators cs
  | comment {cs body : List Char} (h : Separators cs) (hb : '\n' ∉ body) :
      FinalSeparators (cs ++ '#' :: body)

theorem skipSeparators_comment {body : List Char} (hb : '\n' ∉ body) :
    skipSeparators ('#' :: body) = [] := by
  have hbody : skipSeparatorsFrom true (body ++ []) = [] := skipSeparatorsFrom_true_append hb
  rw [List.append_nil] at hbody
  simpa [skipSeparators, skipSeparatorsFrom, isBlank_hash] using hbody

/-- What stands behind separators is found as if it stood alone. -/
theorem Grammar.Separators.skipSeparators_append {cs : List Char} (h : Separators cs)
    (t : List Char) : skipSeparators (cs ++ t) = skipSeparators t := by
  induction h with
  | nil => rfl
  | @blank c cs hc _ ih =>
    have hskip : skipSeparators (c :: (cs ++ t)) = skipSeparators (cs ++ t) := by
      simp [skipSeparators, skipSeparatorsFrom, hc]
    rw [List.cons_append, hskip, ih]
  | @comment body cs hb _ ih =>
    have hassoc : '#' :: (body ++ '\n' :: cs) ++ t = ('#' :: body) ++ '\n' :: (cs ++ t) := by simp
    rw [hassoc, skipSeparators_append_newline (skipSeparators_comment hb), ih]

theorem Grammar.FinalSeparators.skipSeparators_eq_nil {cs : List Char} (h : FinalSeparators cs) :
    skipSeparators cs = [] := by
  cases h with
  | ended h =>
    have hskip := h.skipSeparators_append []
    rw [List.append_nil] at hskip
    exact hskip
  | comment h hb => rw [h.skipSeparators_append, skipSeparators_comment hb]

/-! ## Separators behind separators -/

/-- Where nothing but separators stand, nothing is left within a comment either. -/
theorem skipSeparatorsFrom_true_eq_nil {cs : List Char} (h : skipSeparators cs = []) :
    skipSeparatorsFrom true cs = [] := by
  induction cs with
  | nil => rfl
  | cons c cs ih =>
    rw [skipSeparators, skipSeparatorsFrom] at h
    rw [skipSeparatorsFrom]
    split at h
    · -- a line break ends the comment, and any other blank belongs to it
      cases c != '\n' with
      | true => exact ih h
      | false => exact h
    · split at h
      · next hc =>
        subst hc
        exact h
      · cases h

theorem skipSeparators_append_eq_nil {cs t : List Char} (h : skipSeparators cs = [])
    (ht : skipSeparators t = []) : skipSeparators (cs ++ t) = [] := by
  obtain ⟨b, hb⟩ := exists_skipSeparatorsFrom_append h
  rw [skipSeparators, hb]
  cases b with
  | true => exact skipSeparatorsFrom_true_eq_nil ht
  | false => exact ht

/-! ## Around a program -/

theorem parse_separators_append {p : String} (h : Separators p.toList) (s : String) :
    parse (p ++ s) = parse s := by
  have hlexemes : lexemes (p ++ s).toList = lexemes s.toList := by
    rw [String.toList_append]
    exact lexemes_congr (h.skipSeparators_append s.toList)
  rw [parse_eq_start_parse, hlexemes, parse_eq_start_parse]

/-- A program ends where the parser has read all tokens, and only separators are left. More of them
change nothing if they leave the last token alone. -/
theorem parse_append_of_skipSeparators {s q : String} {e : Expr} (h : parse s = .ok e)
    (hskip : skipSeparators q.toList = []) (hblank : ∀ c ∈ q.toList.head?, isBlank c = true) :
    parse (s ++ q) = .ok e := by
  obtain ⟨st, rest, hreads, -, hverdict⟩ := exists_stall s
  obtain ⟨rfl, hrest⟩ := Stand.verdict_eq_ok (hverdict.symm.trans h)
  have hend : lexemes (rest ++ q.toList) = [] :=
    lexemes_of_skips_nil (skips_iff.mpr (skipSeparators_append_eq_nil hrest hskip))
  have hparse := parse_append hreads (t := q.toList) fun _ => hblank
  rw [String.ofList_toList, hend] at hparse
  exact hparse

/-- A line break at the end of a program changes nothing. -/
theorem parse_append_newline {s : String} {e : Expr} (h : parse s = .ok e) :
    parse (s ++ "\n") = .ok e := by
  refine parse_append_of_skipSeparators h rfl fun c hc => ?_
  obtain rfl : '\n' = c := by simpa using hc
  rfl

/-- Separators in front of a source change nothing, neither its tree nor its error. Separators behind
a program change nothing if there are none or if the first one is a blank. -/
theorem separators_transparent :
    (∀ p s : String, Separators p.toList → parse (p ++ s) = parse s) ∧
      ∀ (s q : String) (e : Expr), parse s = .ok e → FinalSeparators q.toList →
        (∀ c ∈ q.toList.head?, isBlank c = true) → parse (s ++ q) = .ok e := by
  constructor
  · intro p s hp
    exact parse_separators_append hp s
  · intro s q e hs hq hblank
    exact parse_append_of_skipSeparators hs hq.skipSeparators_eq_nil hblank

/-- A comment with a parenthesis in it stands before a call that breaks off, and separators with a
comment at their end stand behind a call that has a comment at its end already. -/
theorem separators_transparent_with_comments :
    Separators " #(\n\t".toList ∧ parse (" #(\n\t" ++ "f(1 2") = parse "f(1 2" ∧
      parse "f(1) #a" = .ok (.apply (.word "f") [.number (.ofNat 1)]) ∧
      FinalSeparators " #b\n #c".toList ∧
      parse ("f(1) #a" ++ " #b\n #c") = .ok (.apply (.word "f") [.number (.ofNat 1)]) := by
  have hbefore : Separators (' ' :: '#' :: (['('] ++ '\n' :: ['\t'])) :=
    .blank rfl (.comment (by decide) (.blank rfl .nil))
  have hbehind : Separators (' ' :: '#' :: (['b'] ++ '\n' :: [' '])) :=
    .blank rfl (.comment (by decide) (.blank rfl .nil))
  have hfinal : FinalSeparators ((' ' :: '#' :: (['b'] ++ '\n' :: [' '])) ++ '#' :: ['c']) :=
    .comment hbehind (by decide)
  have hparse : parse "f(1) #a" = .ok (.apply (.word "f") [.number (.ofNat 1)]) := by cbv
  refine ⟨hbefore, separators_transparent.1 _ _ hbefore, hparse, hfinal, ?_⟩
  refine separators_transparent.2 _ _ _ hparse hfinal fun c hc => ?_
  obtain rfl : ' ' = c := by simpa using hc
  rfl

end Egg.Syntax
