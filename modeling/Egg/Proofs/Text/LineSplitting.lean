import Egg.Text.Lines
import Mathlib

/-!
# The lines of a text

A text is the sequence of its lines, each with its line ending: every line but the last ends with its
only line feed, and the last one may lack it (`Lines`). What is left of the lines without their
endings, joined by line feeds, is the text with every carriage return dropped that a line feed
follows, and without the line feed at the very end if there is one (`dropReturns_eq`).
-/

namespace Egg.Text

/-- The text is made of the lines, each with its line ending. -/
inductive Lines : List Char → List (List Char) → Prop where
  | nil : Lines [] []
  /-- A last line that no line feed ends. -/
  | last {line : List Char} (hne : line ≠ []) (hline : '\n' ∉ line) : Lines line [line]
  | cons {line rest : List Char} {ls : List (List Char)} (hline : '\n' ∉ line)
      (h : Lines rest ls) : Lines (line ++ '\n' :: rest) ((line ++ ['\n']) :: ls)

theorem exists_lines (text : List Char) : ∃ ls, Lines text ls := by
  induction hn : text.length using Nat.strongRecOn generalizing text with
  | ind n ih =>
    by_cases hmem : '\n' ∈ text
    · obtain ⟨line, rest, rfl, hline⟩ := List.eq_append_cons_of_mem hmem
      have hlt : rest.length < n := by
        rw [← hn, List.length_append, List.length_cons]
        omega
      obtain ⟨ls, hls⟩ := ih _ hlt rest rfl
      exact ⟨_, .cons hline hls⟩
    · by_cases hnil : text = []
      · exact ⟨[], hnil ▸ .nil⟩
      · exact ⟨[text], .last hnil hmem⟩

/-- Some of the lines of a text, in their order, are the lines of what they make up. -/
theorem Lines.sublist {text : List Char} {ls ls' : List (List Char)} (h : Lines text ls)
    (hsub : ls'.Sublist ls) : Lines ls'.flatten ls' := by
  induction h generalizing ls' with
  | nil =>
    obtain rfl := List.sublist_nil.mp hsub
    exact .nil
  | @last line hne hline =>
    rcases List.sublist_singleton.mp hsub with rfl | rfl
    · exact .nil
    · simpa using Lines.last hne hline
  | @cons line rest ls hline _ ih =>
    cases hsub with
    | cons _ hsub => exact ih hsub
    | cons_cons _ hsub => simpa using Lines.cons hline (ih hsub)

/-! ## Line endings -/

/-- A line without the `\n` or `\r\n` at its end. -/
def withoutEnding (line : List Char) : List Char :=
  match line.reverse with
  | '\n' :: '\r' :: rest => rest.reverse
  | '\n' :: rest => rest.reverse
  | _ => line

theorem withoutEnding_append_newline (line : List Char) :
    withoutEnding (line ++ ['\n']) = (withoutReturn line.reverse).reverse := by
  rw [withoutEnding, List.reverse_append, List.reverse_singleton, List.singleton_append]
  generalize line.reverse = before
  unfold withoutReturn
  split
  · next rest heq =>
    obtain rfl := (List.cons.inj heq).2
    rfl
  · next rest hreturn heq =>
    obtain rfl := (List.cons.inj heq).2
    split
    · next rest => exact absurd rfl (hreturn rest)
    · rfl
  · next hnewline => exact absurd rfl (hnewline before)

theorem withoutEnding_of_not_mem {line : List Char} (h : '\n' ∉ line) : withoutEnding line = line := by
  rw [← List.mem_reverse] at h
  unfold withoutEnding
  split
  · next heq => exact absurd (by simp [heq]) h
  · next heq => exact absurd (by simp [heq]) h
  · rfl

theorem linesFrom_append {line : List Char} (hline : '\n' ∉ line) (before rest : List Char) :
    linesFrom before (line ++ rest) = linesFrom (line.reverse ++ before) rest := by
  induction line generalizing before with
  | nil => rfl
  | cons c line ih =>
    rw [List.mem_cons, not_or] at hline
    rw [List.cons_append, linesFrom, if_neg (Ne.symm hline.1), ih hline.2, List.reverse_cons,
      List.append_assoc]
    rfl

theorem Lines.lines_eq {text : List Char} {ls : List (List Char)} (h : Lines text ls) :
    lines text = ls.map withoutEnding := by
  induction h with
  | nil => rfl
  | @last line hne hline =>
    have hlast := linesFrom_append hline [] []
    rw [List.append_nil, List.append_nil] at hlast
    rw [lines, hlast, linesFrom, List.map_singleton, withoutEnding_of_not_mem hline]
    simp [hne]
  | @cons line rest ls hline _ ih =>
    rw [lines, linesFrom_append hline, List.append_nil, linesFrom, if_pos rfl, List.map_cons,
      withoutEnding_append_newline, ← ih, lines]

/-! ## Carriage returns in front of line feeds -/

/-- The text with every `\r\n` in it made a `\n`: the carriage return is left out. -/
def dropReturns : List Char → List Char
  | [] => []
  | c :: cs => if c = '\r' ∧ cs.head? = some '\n' then dropReturns cs else c :: dropReturns cs

theorem dropReturns_cons_of_ne {c : Char} (hc : c ≠ '\r') (cs : List Char) :
    dropReturns (c :: cs) = c :: dropReturns cs := by
  rw [dropReturns, if_neg fun h => hc h.1]

theorem dropReturns_append {as bs : List Char} (h : bs.head? ≠ some '\n') :
    dropReturns (as ++ bs) = dropReturns as ++ dropReturns bs := by
  induction as with
  | nil => rfl
  | cons c as ih =>
    -- what follows `c` is the same character, or there is none to drop it for
    have hhead : (as ++ bs).head? = some '\n' ↔ as.head? = some '\n' := by
      cases as with
      | nil => simp [h]
      | cons d as => rfl
    rw [List.cons_append, dropReturns, dropReturns, ih]
    simp only [hhead]
    split
    · rfl
    · rfl

theorem dropReturns_of_not_mem {cs : List Char} (h : '\r' ∉ cs) (rest : List Char) :
    dropReturns (cs ++ rest) = cs ++ dropReturns rest := by
  induction cs with
  | nil => rfl
  | cons c cs ih =>
    rw [List.mem_cons, not_or] at h
    rw [List.cons_append, dropReturns_cons_of_ne (Ne.symm h.1), ih h.2, List.cons_append]

theorem mem_of_mem_dropReturns {c : Char} {cs : List Char} (h : c ∈ dropReturns cs) : c ∈ cs := by
  induction cs with
  | nil => exact h
  | cons d cs ih =>
    rw [dropReturns] at h
    split at h
    · exact List.mem_cons_of_mem d (ih h)
    · rcases List.mem_cons.mp h with rfl | h
      · exact List.mem_cons_self
      · exact List.mem_cons_of_mem d (ih h)

/-- The first character stays, or it is a carriage return and a line feed comes in its place. -/
theorem head?_dropReturns (cs : List Char) :
    (dropReturns cs).head? = cs.head? ∨
      cs.head? = some '\r' ∧ (dropReturns cs).head? = some '\n' := by
  cases cs with
  | nil => exact .inl rfl
  | cons c cs =>
    by_cases h : c = '\r' ∧ cs.head? = some '\n'
    · obtain ⟨rfl, hnext⟩ := h
      obtain ⟨cs', rfl⟩ := List.head?_eq_some_iff.mp hnext
      refine .inr ⟨rfl, ?_⟩
      rw [dropReturns, if_pos ⟨rfl, rfl⟩, dropReturns_cons_of_ne (by decide)]
      rfl
    · left
      rw [dropReturns, if_neg h]
      rfl

theorem dropReturns_eq_nil {cs : List Char} : dropReturns cs = [] ↔ cs = [] := by
  constructor
  · intro h
    rcases head?_dropReturns cs with hhead | ⟨-, hhead⟩
    · rw [h] at hhead
      exact List.head?_eq_none_iff.mp hhead.symm
    · rw [h] at hhead
      cases hhead
  · rintro rfl
    rfl

theorem dropReturns_of_no_newline {line : List Char} (hline : '\n' ∉ line) :
    dropReturns line = line := by
  induction line with
  | nil => rfl
  | cons c line ih =>
    rw [List.mem_cons, not_or] at hline
    have hkeep : ¬ (c = '\r' ∧ line.head? = some '\n') :=
      fun h => hline.2 (List.mem_of_mem_head? h.2)
    rw [dropReturns, if_neg hkeep, ih hline.2]

theorem withoutReturn_cons_of_ne {c : Char} (hc : c ≠ '\r') (line : List Char) :
    withoutReturn (c :: line) = c :: line := by
  unfold withoutReturn
  split
  · next heq => exact absurd (List.cons.inj heq).1 hc
  · rfl

/-- Of a line nothing is dropped but the return before its line feed. -/
theorem dropReturns_line {line : List Char} (hline : '\n' ∉ line) (rest : List Char) :
    dropReturns (line ++ '\n' :: rest) = withoutEnding (line ++ ['\n']) ++ '\n' :: dropReturns rest := by
  have hrest : dropReturns ('\n' :: rest) = '\n' :: dropReturns rest :=
    dropReturns_cons_of_ne (by decide) rest
  rw [withoutEnding_append_newline]
  rcases List.eq_nil_or_concat line with rfl | ⟨before, c, rfl⟩
  · exact hrest
  · rw [List.concat_eq_append] at hline ⊢
    rw [List.mem_append, List.mem_singleton, not_or] at hline
    have hhead : (c :: '\n' :: rest).head? ≠ some '\n' := by simpa using Ne.symm hline.2
    rw [List.append_assoc, List.singleton_append, dropReturns_append hhead,
      dropReturns_of_no_newline hline.1, List.reverse_append]
    by_cases hc : c = '\r'
    · subst hc
      rw [dropReturns, if_pos ⟨rfl, rfl⟩, hrest, List.reverse_singleton, List.singleton_append,
        withoutReturn, List.reverse_reverse]
    · rw [dropReturns_cons_of_ne hc, hrest, List.reverse_singleton, List.singleton_append,
        withoutReturn_cons_of_ne hc]
      simp

theorem unlines_cons {line : List Char} {ls : List (List Char)} (h : ls ≠ []) :
    unlines (line :: ls) = line ++ '\n' :: unlines ls := by
  obtain ⟨l, ls, rfl⟩ := List.exists_cons_of_ne_nil h
  simp [unlines, List.intercalate_cons_cons]

theorem getLast?_line (line rest : List Char) :
    (line ++ '\n' :: rest).getLast? = if rest = [] then some '\n' else rest.getLast? := by
  rw [List.getLast?_append, List.getLast?_cons]
  split
  · next hrest =>
    subst hrest
    rfl
  · next hrest =>
    obtain ⟨c, hc⟩ := Option.isSome_iff_exists.mp (List.getLast?_isSome.mpr hrest)
    rw [hc]
    rfl

/-- Making all line endings plain drops the carriage returns, and a line feed at the very end if there
is one. -/
theorem dropReturns_eq (text : List Char) : dropReturns text =
    withPlainLineEndings text ++ if text.getLast? = some '\n' then ['\n'] else [] := by
  obtain ⟨ls, hls⟩ := exists_lines text
  rw [withPlainLineEndings, hls.lines_eq]
  induction hls with
  | nil => rfl
  | @last line hne hline =>
    have hlast : line.getLast? ≠ some '\n' := fun h => hline (List.mem_of_getLast? h)
    rw [dropReturns_of_no_newline hline, List.map_singleton, withoutEnding_of_not_mem hline,
      if_neg hlast]
    simp [unlines]
  | @cons line rest ls hline hrest ih =>
    rw [dropReturns_line hline, List.map_cons, getLast?_line]
    cases hrest with
    | nil => simp [unlines, dropReturns]
    | last hne =>
      rw [unlines_cons (by simp), ih, if_neg hne]
      simp
    | cons =>
      have hne : ∀ line rest : List Char, line ++ '\n' :: rest ≠ [] := by simp
      rw [unlines_cons (by simp), ih, if_neg (hne _ _)]
      simp

theorem dropReturns_eq_withPlainLineEndings (text : List Char) :
    dropReturns text = withPlainLineEndings text ∨
      dropReturns text = withPlainLineEndings text ++ ['\n'] := by
  rw [dropReturns_eq]
  split
  · exact .inr rfl
  · exact .inl (List.append_nil _)

end Egg.Text
