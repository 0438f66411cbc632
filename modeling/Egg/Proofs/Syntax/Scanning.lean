import Egg.Proofs.Syntax.Grammar

/-!
# The scanners find what the grammar says

Each scanner is matched with a relation of the grammar, in both directions: `skipSeparators` with
`Skips` (`skips_iff`), and `scanLeaf` with `Leaf` (`leaf_iff`).
-/

namespace Egg.Syntax

open Egg.Text (isBlank)
open Grammar

/-! ## Separators -/

theorem isBlank_newline : isBlank '\n' = true := rfl

theorem isBlank_hash : isBlank '#' = false := rfl

/-- Within a comment, reading goes on until the line ends. -/
theorem skipSeparatorsFrom_true_append {body cs : List Char} (hb : '\n' ∉ body) :
    skipSeparatorsFrom true (body ++ cs) = skipSeparatorsFrom true cs := by
  induction body with
  | nil => rfl
  | cons c body ih =>
    rw [List.mem_cons, not_or] at hb
    have hc : (c != '\n') = true := by simpa using Ne.symm hb.1
    rw [List.cons_append, skipSeparatorsFrom, hc]
    exact ih hb.2

/-- The line break that ends a comment is a blank like others. -/
theorem skipSeparatorsFrom_true_of_boundary {cs : List Char} (h : ∀ c ∈ cs.head?, c = '\n') :
    skipSeparatorsFrom true cs = skipSeparators cs := by
  cases cs with
  | nil => rfl
  | cons c cs =>
    obtain rfl := h c rfl
    simp [skipSeparators, skipSeparatorsFrom, isBlank_newline]

theorem skipSeparators_of_skips {cs rest : List Char} (h : Skips cs rest) :
    skipSeparators cs = rest := by
  induction h with
  | @done cs h =>
    cases cs with
    | nil => rfl
    | cons c cs =>
      obtain ⟨hb, hne⟩ := h c rfl
      simp [skipSeparators, skipSeparatorsFrom, hb, hne]
  | blank hc _ ih =>
    rw [← ih]
    simp [skipSeparators, skipSeparatorsFrom, hc]
  | @comment body cs rest hb he _ ih =>
    calc
      skipSeparators ('#' :: (body ++ cs)) = skipSeparatorsFrom true (body ++ cs) := by
        simp [skipSeparators, skipSeparatorsFrom, isBlank_hash]
      _ = skipSeparatorsFrom true cs := skipSeparatorsFrom_true_append hb
      _ = skipSeparators cs := skipSeparatorsFrom_true_of_boundary he
      _ = rest := ih

/-- What is skipped are separators, also where reading starts within a comment: then some characters
are the end of the comment. -/
theorem skips_skipSeparatorsFrom (cs : List Char) :
    Skips cs (skipSeparatorsFrom false cs) ∧
      ∃ body cs', cs = body ++ cs' ∧ '\n' ∉ body ∧ (∀ c ∈ cs'.head?, c = '\n') ∧
        Skips cs' (skipSeparatorsFrom true cs) := by
  -- Both halves are needed together: a comment is entered from outside and left from inside.
  induction cs with
  | nil => exact ⟨.done (by simp), [], [], rfl, by simp, by simp, .done (by simp)⟩
  | cons c cs ih =>
    obtain ⟨hout, body, cs', rfl, hb, he, hin⟩ := ih
    constructor
    · simp only [skipSeparatorsFrom]
      split
      · next hblank => exact .blank hblank hout
      · next hblank =>
        split
        · next hc =>
          subst hc
          exact .comment hb he hin
        · next hc => exact .done (by simp [hblank, hc])
    · by_cases hc : c = '\n'
      · subst hc
        exact ⟨[], _, rfl, by simp, by simp, .blank isBlank_newline hout⟩
      · have hne : (c != '\n') = true := by simpa using hc
        refine ⟨c :: body, cs', rfl, ?_, he, ?_⟩
        · rw [List.mem_cons, not_or]
          exact ⟨Ne.symm hc, hb⟩
        · rw [skipSeparatorsFrom, hne]
          exact hin

theorem skips_iff {cs rest : List Char} : Skips cs rest ↔ skipSeparators cs = rest :=
  ⟨skipSeparators_of_skips, fun h => h ▸ (skips_skipSeparatorsFrom cs).1⟩

/-! ## Longest runs -/

/-- A run of characters with a property, and a rest that begins without it, are found where the
property is taken off the start. -/
theorem takeWhile_eq_and_dropWhile_eq {p : Char → Bool} {run rest : List Char}
    (hrun : ∀ c ∈ run, p c = true) (hrest : ∀ c ∈ rest.head?, p c = false) :
    (run ++ rest).takeWhile p = run ∧ (run ++ rest).dropWhile p = rest := by
  rw [List.takeWhile_append_of_pos hrun, List.dropWhile_append_of_pos hrun]
  cases rest with
  | nil => simp
  | cons c rest =>
    have hc := hrest c rfl
    simp [hc]

/-- A run of characters of one class can be told from what follows it. -/
theorem append_inj_of_class {p : Char → Bool} {xs ys r r' : List Char}
    (hxs : ∀ c ∈ xs, p c = true) (hys : ∀ c ∈ ys, p c = true) (hr : ∀ c ∈ r.head?, p c = false)
    (hr' : ∀ c ∈ r'.head?, p c = false) (h : xs ++ r = ys ++ r') : xs = ys ∧ r = r' := by
  obtain ⟨hxtake, hxdrop⟩ := takeWhile_eq_and_dropWhile_eq hxs hr
  obtain ⟨hytake, hydrop⟩ := takeWhile_eq_and_dropWhile_eq hys hr'
  rw [h] at hxtake hxdrop
  exact ⟨hxtake.symm.trans hytake, hxdrop.symm.trans hydrop⟩

theorem of_mem_takeWhile {p : Char → Bool} {cs : List Char} {c : Char} (h : c ∈ cs.takeWhile p) :
    p c = true :=
  List.all_eq_true.mp List.all_takeWhile c h

theorem of_mem_head?_dropWhile {p : Char → Bool} {cs : List Char} {c : Char}
    (h : c ∈ (cs.dropWhile p).head?) : p c = false := by
  have hnot := List.head?_dropWhile_not p cs
  rw [Option.mem_def.mp h] at hnot
  simpa using hnot

/-! ## Leaves -/

theorem scanText_eq_some_iff {cs t rest : List Char} :
    scanText cs = some (t, rest) ↔ cs = '"' :: (t ++ '"' :: rest) ∧ '"' ∉ t := by
  constructor
  · intro h
    unfold scanText at h
    split at h
    · next cs' =>
      split at h
      · next q rest' hdrop =>
        simp only [Option.some.injEq, Prod.mk.injEq] at h
        obtain ⟨rfl, rfl⟩ := h
        have hhead : q ∈ (cs'.dropWhile (· != '"')).head? := by simp [hdrop]
        have hq : q = '"' := by simpa using of_mem_head?_dropWhile hhead
        have hsplit := List.takeWhile_append_dropWhile (p := (· != '"')) (l := cs')
        rw [hdrop, hq] at hsplit
        refine ⟨by rw [hsplit], fun hmem => ?_⟩
        have := of_mem_takeWhile hmem
        simp at this
      · cases h
    · cases h
  · rintro ⟨rfl, ht⟩
    have hrun : ∀ c ∈ t, (c != '"') = true := by
      intro c hc
      have hne : c ≠ '"' := fun heq => ht (heq ▸ hc)
      simpa using hne
    have hrest : ∀ c ∈ ('"' :: rest).head?, (c != '"') = false := by simp
    obtain ⟨htake, hdrop⟩ := takeWhile_eq_and_dropWhile_eq hrun hrest
    simp only [scanText, htake, hdrop]

/-- A digit after a run of digits makes it no number, so a number is a longest run. -/
theorem extendsNumber_of_isDigit {c : Char} (hc : c.isDigit = true) : extendsNumber c = true := by
  simp [extendsNumber, Char.isAlphanum, hc]

theorem scanDigits_eq_some_iff {cs digits rest : List Char} :
    scanDigits cs = some (digits, rest) ↔ cs = digits ++ rest ∧ IsNumber digits rest := by
  constructor
  · intro h
    simp only [scanDigits] at h
    split at h
    · cases h
    · next hn =>
      simp only [Option.some.injEq, Prod.mk.injEq] at h
      obtain ⟨rfl, rfl⟩ := h
      simp only [Bool.or_eq_true, List.isEmpty_iff, not_or, Option.any_eq_true] at hn
      refine ⟨List.takeWhile_append_dropWhile.symm, hn.1, fun c hc => of_mem_takeWhile hc, ?_⟩
      intro c hc
      cases hext : extendsNumber c with
      | false => rfl
      | true => exact absurd ⟨c, hc, hext⟩ hn.2
  · rintro ⟨rfl, hnumber⟩
    have hrest : ∀ c ∈ rest.head?, c.isDigit = false := by
      intro c hc
      cases hdigit : c.isDigit with
      | false => rfl
      | true =>
        have hext := extendsNumber_of_isDigit hdigit
        rw [hnumber.boundary c hc] at hext
        cases hext
    obtain ⟨htake, hdrop⟩ := takeWhile_eq_and_dropWhile_eq hnumber.digit hrest
    have hany : rest.head?.any extendsNumber = false := by
      cases hhead : rest.head? with
      | none => rfl
      | some c => exact hnumber.boundary c hhead
    simp [scanDigits, htake, hdrop, hnumber.ne_nil, hany]

theorem scanWord_eq_some_iff {cs w rest : List Char} :
    scanWord cs = some (w, rest) ↔ cs = w ++ rest ∧ IsWord w rest := by
  constructor
  · intro h
    simp only [scanWord] at h
    split at h
    · cases h
    · next hn =>
      simp only [Option.some.injEq, Prod.mk.injEq] at h
      obtain ⟨rfl, rfl⟩ := h
      rw [List.isEmpty_iff] at hn
      exact ⟨List.takeWhile_append_dropWhile.symm, hn, fun c hc => of_mem_takeWhile hc,
        fun c hc => of_mem_head?_dropWhile hc⟩
  · rintro ⟨rfl, hword⟩
    obtain ⟨htake, hdrop⟩ := takeWhile_eq_and_dropWhile_eq hword.wordChar hword.boundary
    simp [scanWord, htake, hdrop, hword.ne_nil]

/-- Only a text begins with a quote. -/
theorem scanText_eq_none_of_head {c : Char} {cs : List Char} (hc : c ≠ '"') :
    scanText (c :: cs) = none := by
  unfold scanText
  split
  · next heq => exact absurd (List.cons.inj heq).1 hc
  · rfl

/-- The scanner of leaves finds exactly the leaves of the grammar. -/
theorem leaf_iff {cs rest : List Char} {e : Expr} :
    Leaf cs e rest ↔ scanLeaf cs = some (e, rest) := by
  constructor
  · intro h
    cases h with
    | text ht => simp [scanLeaf, scanText_eq_some_iff.mpr ⟨rfl, ht⟩]
    | @number digits rest hnumber =>
      have htext : scanText (digits ++ rest) = none := by
        cases digits with
        | nil => exact absurd rfl hnumber.ne_nil
        | cons c digits =>
          refine scanText_eq_none_of_head fun hc => ?_
          have hdigit := hnumber.digit c List.mem_cons_self
          rw [hc] at hdigit
          cases hdigit
      simp [scanLeaf, htext, scanDigits_eq_some_iff.mpr ⟨rfl, hnumber⟩]
    | @word w rest hword hn =>
      have htext : scanText (w ++ rest) = none := by
        cases w with
        | nil => exact absurd rfl hword.ne_nil
        | cons c w =>
          refine scanText_eq_none_of_head fun hc => ?_
          have hchar := hword.wordChar c List.mem_cons_self
          rw [hc] at hchar
          cases hchar
      have hdigits : scanDigits (w ++ rest) = none := by
        rw [Option.eq_none_iff_forall_ne_some]
        rintro ⟨digits, rest'⟩ hsome
        obtain ⟨heq, hnumber⟩ := scanDigits_eq_some_iff.mp hsome
        exact hn digits rest' heq hnumber
      simp [scanLeaf, htext, hdigits, scanWord_eq_some_iff.mpr ⟨rfl, hword⟩]
  · intro h
    unfold scanLeaf at h
    split at h
    · next t rest' htext =>
      simp only [Option.some.injEq, Prod.mk.injEq] at h
      obtain ⟨rfl, rfl⟩ := h
      obtain ⟨rfl, ht⟩ := scanText_eq_some_iff.mp htext
      exact .text ht
    · split at h
      · next digits rest' hdigits =>
        simp only [Option.some.injEq, Prod.mk.injEq] at h
        obtain ⟨rfl, rfl⟩ := h
        obtain ⟨rfl, hnumber⟩ := scanDigits_eq_some_iff.mp hdigits
        exact .number hnumber
      · next hdigits =>
        obtain ⟨⟨w, rest'⟩, hscan, heq⟩ := Option.map_eq_some_iff.mp h
        simp only [Prod.mk.injEq] at heq
        obtain ⟨rfl, rfl⟩ := heq
        obtain ⟨rfl, hword⟩ := scanWord_eq_some_iff.mp hscan
        refine .word hword fun digits rest'' heq hnumber => ?_
        rw [scanDigits_eq_some_iff.mpr ⟨heq, hnumber⟩] at hdigits
        cases hdigits

end Egg.Syntax
