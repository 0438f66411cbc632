import Egg.Proofs.Syntax.Cursor
import Mathlib

/-!
# Skipping separators

Separators are skipped in rounds. A round passes over the blanks and, if a comment begins behind them,
over the comment up to its line break, where the next round begins. Each round but the last one uses up
a `#`, so the rounds come to an end (`exists_rounds`), and where they end is the only place with
separators in front of it and none behind it (`skipSeparators_eq_iff`).
-/

namespace Egg.Syntax

open Egg.Text (isBlank)
open Grammar

/-! ## Rounds -/

/-- Some rounds, of which all but the last one pass over a comment, and what they leave. -/
inductive Rounds : Nat → List Char → List Char → Prop where
  /-- No comment begins behind the blanks. -/
  | last {cs : List Char} (h : (cs.dropWhile isBlank).head? ≠ some '#') :
      Rounds 0 cs (cs.dropWhile isBlank)
  /-- The line break that ends the comment, if there is one, is left to the next round. -/
  | comment {k : Nat} {cs body rest : List Char} (h : cs.dropWhile isBlank = '#' :: body)
      (hnext : Rounds k (body.dropWhile (· != '\n')) rest) : Rounds (k + 1) cs rest

theorem skipSeparators_dropWhile_isBlank (cs : List Char) :
    skipSeparators (cs.dropWhile isBlank) = skipSeparators cs := by
  induction cs with
  | nil => rfl
  | cons c cs ih =>
    by_cases hc : isBlank c = true
    · rw [List.dropWhile_cons_of_pos hc, ih]
      simp [skipSeparators, skipSeparatorsFrom, hc]
    · rw [List.dropWhile_cons_of_neg hc]

/-- A comment is passed over up to its line break. -/
theorem skipSeparators_hash (body : List Char) :
    skipSeparators ('#' :: body) = skipSeparators (body.dropWhile (· != '\n')) := by
  have hline : '\n' ∉ body.takeWhile (· != '\n') := by
    intro hmem
    have hne := of_mem_takeWhile hmem
    simp at hne
  have hbreak : ∀ c ∈ (body.dropWhile (· != '\n')).head?, c = '\n' := by
    intro c hc
    have hstop := of_mem_head?_dropWhile hc
    simpa using hstop
  calc
    skipSeparators ('#' :: body) = skipSeparatorsFrom true body := by
      simp [skipSeparators, skipSeparatorsFrom, isBlank_hash]
    _ = skipSeparatorsFrom true (body.takeWhile (· != '\n') ++ body.dropWhile (· != '\n')) := by
      rw [List.takeWhile_append_dropWhile]
    _ = skipSeparatorsFrom true (body.dropWhile (· != '\n')) := skipSeparatorsFrom_true_append hline
    _ = skipSeparators (body.dropWhile (· != '\n')) := skipSeparatorsFrom_true_of_boundary hbreak

/-- Where the rounds end is where skipping ends. -/
theorem Rounds.skipSeparators_eq {k : Nat} {cs rest : List Char} (h : Rounds k cs rest) :
    skipSeparators cs = rest := by
  induction h with
  | @last cs h =>
    rw [← skipSeparators_dropWhile_isBlank]
    refine skipSeparators_of_skips (.done fun c hc => ⟨of_mem_head?_dropWhile hc, ?_⟩)
    rintro rfl
    exact h hc
  | comment h _ ih => rw [← skipSeparators_dropWhile_isBlank, h, skipSeparators_hash, ih]

/-- The rounds end, and there are at most as many comments as there are `#`. -/
theorem exists_rounds (cs : List Char) : ∃ k ≤ cs.count '#', Rounds k cs (skipSeparators cs) := by
  -- The induction is on the number of `#` ahead: a comment that is passed over takes its own along.
  induction hn : cs.count '#' using Nat.strongRecOn generalizing cs with
  | ind n ih =>
    by_cases hhash : (cs.dropWhile isBlank).head? = some '#'
    · obtain ⟨body, hbody⟩ := List.head?_eq_some_iff.mp hhash
      have hcount : (body.dropWhile (· != '\n')).count '#' < n := by
        have hle := (List.dropWhile_sublist isBlank (l := cs)).count_le '#'
        have hle' := (List.dropWhile_sublist (· != '\n') (l := body)).count_le '#'
        rw [hbody, List.count_cons_self] at hle
        omega
      obtain ⟨k, hk, hrounds⟩ := ih _ hcount _ rfl
      refine ⟨k + 1, by omega, ?_⟩
      rw [← skipSeparators_dropWhile_isBlank, hbody, skipSeparators_hash]
      exact .comment hbody hrounds
    · have hlast : Rounds 0 cs (cs.dropWhile isBlank) := .last hhash
      refine ⟨0, Nat.zero_le n, ?_⟩
      rwa [hlast.skipSeparators_eq]

/-! ## The place where skipping ends -/

/-- Blanks and comments in front of `rest`. A comment extends up to a line break, or up to the end of
the source if none follows. -/
inductive Grammar.SeparatorsBefore (rest : List Char) : List Char → Prop where
  | nil : SeparatorsBefore rest []
  | blank {c : Char} {cs : List Char} (hc : isBlank c = true) (h : SeparatorsBefore rest cs) :
      SeparatorsBefore rest (c :: cs)
  | comment {body cs : List Char} (hb : '\n' ∉ body) (he : ∀ c ∈ (cs ++ rest).head?, c = '\n')
      (h : SeparatorsBefore rest cs) : SeparatorsBefore rest ('#' :: (body ++ cs))

/-- Nothing is left, or what is left does not begin with a separator. -/
def Grammar.BeginsToken (rest : List Char) : Prop := ∀ c ∈ rest.head?, isBlank c = false ∧ c ≠ '#'

theorem Grammar.SeparatorsBefore.skips {passed rest : List Char} (h : SeparatorsBefore rest passed)
    (hrest : BeginsToken rest) : Skips (passed ++ rest) rest := by
  induction h with
  | nil => exact .done hrest
  | blank hc _ ih => exact .blank hc ih
  | comment hb he _ ih =>
    rw [List.cons_append, List.append_assoc]
    exact .comment hb he ih

theorem Grammar.Skips.exists_separatorsBefore {cs rest : List Char} (h : Skips cs rest) :
    BeginsToken rest ∧ ∃ passed, cs = passed ++ rest ∧ SeparatorsBefore rest passed := by
  induction h with
  | done h => exact ⟨h, [], rfl, .nil⟩
  | blank hc _ ih =>
    obtain ⟨hrest, passed, rfl, hpassed⟩ := ih
    exact ⟨hrest, _ :: passed, rfl, .blank hc hpassed⟩
  | @comment body _ _ hb he _ ih =>
    obtain ⟨hrest, passed, rfl, hpassed⟩ := ih
    exact ⟨hrest, '#' :: (body ++ passed), by simp, .comment hb he hpassed⟩

/-- Skipping ends at the only place with separators in front of it and none behind it. -/
theorem skipSeparators_eq_iff {cs rest : List Char} : skipSeparators cs = rest ↔
    BeginsToken rest ∧ ∃ passed, cs = passed ++ rest ∧ SeparatorsBefore rest passed := by
  rw [← skips_iff]
  refine ⟨Skips.exists_separatorsBefore, ?_⟩
  rintro ⟨hrest, passed, rfl, hpassed⟩
  exact hpassed.skips hrest

theorem skipSeparators_skipSeparators (cs : List Char) :
    skipSeparators (skipSeparators cs) = skipSeparators cs := by
  obtain ⟨hrest, -⟩ := skipSeparators_eq_iff.mp (rfl : skipSeparators cs = _)
  exact skipSeparators_eq_iff.mpr ⟨hrest, [], rfl, .nil⟩

namespace Cursor

/-- From every place of every source, skipping separators takes finitely many rounds, one for each
comment and a last one. What it passes over are blanks and comments, and behind them the source ends or
a character stands that is neither blank nor a `#`. No other place has these properties, and skipping
again stays there. -/
theorem skipSeparators_exact (before rest : List Char) :
    ∃ passed rest', (between before rest).skipSeparators = between (before ++ passed) rest' ∧
      (∃ k ≤ rest.count '#', Rounds k rest rest') ∧
      rest = passed ++ rest' ∧ SeparatorsBefore rest' passed ∧ BeginsToken rest' ∧
      (between before rest).skipSeparators.position =
        (between before rest).position + utf8Length passed ∧
      (∀ passed₁ rest₁, rest = passed₁ ++ rest₁ → SeparatorsBefore rest₁ passed₁ →
        BeginsToken rest₁ → passed₁ = passed ∧ rest₁ = rest') ∧
      (between (before ++ passed) rest').skipSeparators = between (before ++ passed) rest' := by
  obtain ⟨hbegins, passed, hpassed, hseparators⟩ :=
    skipSeparators_eq_iff.mp (rfl : Syntax.skipSeparators rest = _)
  have hrounds := exists_rounds rest
  have hagain := skipSeparators_skipSeparators rest
  have hskip : (between before rest).skipSeparators = ⟨before ++ rest, Syntax.skipSeparators rest⟩ :=
    rfl
  generalize hrest' : Syntax.skipSeparators rest = rest' at *
  have hmove : (between before rest).skipSeparators = between (before ++ passed) rest' := by
    rw [hskip, hpassed, between_append]
  refine ⟨passed, rest', hmove, hrounds, hpassed, hseparators, hbegins, ?_, ?_, ?_⟩
  · rw [hmove, position_between, position_between, utf8Length_append]
  · intro passed₁ rest₁ hrest₁ hseparators₁ hbegins₁
    have hplace := skipSeparators_eq_iff.mpr ⟨hbegins₁, passed₁, hrest₁, hseparators₁⟩
    obtain rfl : rest' = rest₁ := hrest'.symm.trans hplace
    exact ⟨List.append_cancel_right (hrest₁.symm.trans hpassed), rfl⟩
  · exact congrArg (Cursor.mk _) hagain

end Cursor

end Egg.Syntax
