import Egg.Proofs.Syntax.Skipping
import Egg.Proofs.Text.Encoding
import Mathlib

/-!
# Cursors on their way through a source

A cursor starts before the first character and is moved by its operations. Each of them passes over
some whole characters and counts their bytes in a way of its own (`Operation.advance`). So the cursor
always stands between two characters, and its position is where the bytes of the source have to be cut
there (`exists_between_of_after`). What the scanners for texts and words find is told by what lies ahead
and by nothing else (`scanText_eq_iff`, `scanWord_eq_iff`).
-/

namespace Egg.Syntax

open Egg.Text (isBlank)

/-! ## Bytes of texts -/

theorem length_encoded (cs : List Char) : (Text.encoded cs).length = utf8Length cs := by
  rw [utf8Length_eq_sum, Text.encoded, List.length_flatMap]
  simp only [String.length_utf8EncodeChar]

/-- Cut behind the bytes of some characters, an encoded text falls apart into two encoded texts. -/
theorem take_encoded_append (cs ds : List Char) :
    (Text.encoded (cs ++ ds)).take (utf8Length cs) = Text.encoded cs := by
  rw [Text.encoded, List.flatMap_append, ← length_encoded]
  exact List.take_left

theorem drop_encoded_append (cs ds : List Char) :
    (Text.encoded (cs ++ ds)).drop (utf8Length cs) = Text.encoded ds := by
  rw [Text.encoded, List.flatMap_append, ← length_encoded]
  exact List.drop_left

theorem utf8Length_cons (c : Char) (cs : List Char) :
    utf8Length (c :: cs) = c.utf8Size + utf8Length cs := by
  simp only [utf8Length_eq_sum, List.map_cons, List.sum_cons]

theorem utf8Length_quoted (t : List Char) : utf8Length ('"' :: (t ++ ['"'])) = utf8Length t + 2 := by
  rw [utf8Length_cons, utf8Length_append]
  exact Nat.add_comm 1 _

/-! ## Longest runs -/

/-- The longest text at the start of `cs` all characters of which have the property `p`. -/
structure IsLongestRun (p : Char → Bool) (run cs : List Char) : Prop where
  start : run <+: cs
  member : ∀ c ∈ run, p c = true
  longest : ∀ run', run' <+: cs → (∀ c ∈ run', p c = true) → run'.length ≤ run.length

theorem isLongestRun_takeWhile (p : Char → Bool) (cs : List Char) :
    IsLongestRun p (cs.takeWhile p) cs := by
  refine ⟨List.takeWhile_prefix p, fun c hc => of_mem_takeWhile hc, ?_⟩
  rintro run ⟨rest, rfl⟩ hrun
  rw [List.takeWhile_append_of_pos hrun, List.length_append]
  exact Nat.le_add_right _ _

theorem isLongestRun_iff {p : Char → Bool} {run cs : List Char} :
    IsLongestRun p run cs ↔ run = cs.takeWhile p := by
  constructor
  · intro h
    have htake := isLongestRun_takeWhile p cs
    have hlength : run.length = (cs.takeWhile p).length :=
      Nat.le_antisymm (htake.longest run h.start h.member) (h.longest _ htake.start htake.member)
    exact (List.prefix_of_prefix_length_le h.start htake.start hlength.le).eq_of_length hlength
  · rintro rfl
    exact isLongestRun_takeWhile p cs

theorem drop_length_takeWhile (p : Char → Bool) (cs : List Char) :
    cs.drop (cs.takeWhile p).length = cs.dropWhile p := by
  have hdrop : (cs.takeWhile p ++ cs.dropWhile p).drop (cs.takeWhile p).length = cs.dropWhile p :=
    List.drop_left
  rwa [List.takeWhile_append_dropWhile] at hdrop

/-! ## Bytes of separators -/

/-- The bytes that are counted when separators are skipped: in every round those of the blanks, and if a
comment begins behind them, those of the comment up to its line break. -/
def separatorBytes (cs : List Char) : Nat :=
  match _ : cs.dropWhile isBlank with
  | '#' :: body =>
    utf8Length (cs.takeWhile isBlank) + utf8Length (('#' :: body).takeWhile (· != '\n')) +
      separatorBytes (body.dropWhile (· != '\n'))
  | _ => utf8Length (cs.takeWhile isBlank)
termination_by cs.length
decreasing_by
  rename_i hbody
  have hblanks := (List.dropWhile_sublist isBlank (l := cs)).length_le
  have hcomment := (List.dropWhile_sublist (· != '\n') (l := body)).length_le
  rw [hbody, List.length_cons] at hblanks
  omega

theorem utf8Length_takeWhile_add (p : Char → Bool) (cs : List Char) :
    utf8Length (cs.takeWhile p) + utf8Length (cs.dropWhile p) = utf8Length cs := by
  rw [← utf8Length_append, List.takeWhile_append_dropWhile]

/-- What the rounds count are the bytes that they pass over. -/
theorem Rounds.separatorBytes_add {k : Nat} {cs rest : List Char} (h : Rounds k cs rest) :
    separatorBytes cs + utf8Length rest = utf8Length cs := by
  induction h with
  | @last cs h =>
    have hblanks := utf8Length_takeWhile_add isBlank cs
    rw [separatorBytes]
    split
    · next body hbody =>
      rw [hbody] at h
      exact absurd rfl h
    · exact hblanks
  | @comment k cs body rest h _ ih =>
    have hblanks := utf8Length_takeWhile_add isBlank cs
    have hcomment := utf8Length_takeWhile_add (· != '\n') ('#' :: body)
    have hdrop : ('#' :: body).dropWhile (· != '\n') = body.dropWhile (· != '\n') := by simp
    rw [separatorBytes]
    split
    · next body' hbody =>
      obtain rfl : body' = body := (List.cons.inj (hbody.symm.trans h)).2
      rw [h] at hblanks
      rw [hdrop] at hcomment
      omega
    · next hnone => exact absurd h (hnone body)

namespace Cursor

/-! ## Operations -/

/-- What can be done with a cursor. The last five only look at it. -/
inductive Operation where
  | eat (ch : Char)
  | skipSeparators
  | scanText
  | scanNumber
  | scanWord
  | rest
  | atEnd
  | peek
  | check (ch : Char)
  | excerpt

namespace Operation

/-- The cursor behind an operation. -/
def perform (c : Cursor) : Operation → Cursor
  | eat ch => (c.eat ch).2
  | skipSeparators => c.skipSeparators
  | scanText => c.scanText.2
  | scanNumber => c.scanNumber.2
  | scanWord => c.scanWord.2
  | rest | atEnd | peek | check _ | excerpt => c

/-- By how many bytes an operation moves the cursor: by those of the character or the word, by those of
the separators as the rounds count them, by those of a text and of its two quotes, or by one for each
digit. -/
def advance (c : Cursor) : Operation → Nat
  | eat ch => if c.check ch then ch.utf8Size else 0
  | skipSeparators => separatorBytes c.rest
  | scanText => c.scanText.1.elim 0 fun t => utf8Length t + 2
  | scanNumber => (c.scan scanDigits).1.elim 0 List.length
  | scanWord => c.scanWord.1.elim 0 utf8Length
  | rest | atEnd | peek | check _ | excerpt => 0

end Operation

/-- The cursor behind some operations, one after the other. -/
def after (c : Cursor) (ops : List Operation) : Cursor := ops.foldl Operation.perform c

/-! ## What the scanners find -/

section Scan

variable {c d : Cursor} {scanner : List Char → Option (List Char × List Char)}

theorem scan_eq_some_iff {found : List Char} : c.scan scanner = (some found, d) ↔
    ∃ r, scanner c.rest = some (found, r) ∧ d = ⟨c.source, r⟩ := by
  rw [scan]
  cases hscan : scanner c.rest with
  | none => simp
  | some result =>
    obtain ⟨found', r'⟩ := result
    simp only [Prod.mk.injEq, Option.some.injEq]
    constructor
    · rintro ⟨rfl, rfl⟩
      exact ⟨r', ⟨rfl, rfl⟩, rfl⟩
    · rintro ⟨r, ⟨rfl, rfl⟩, rfl⟩
      exact ⟨rfl, rfl⟩

theorem scan_of_eq_none (h : scanner c.rest = none) : c.scan scanner = (none, c) := by
  rw [scan, h]

theorem scan_of_eq_some {found r : List Char} (h : scanner c.rest = some (found, r)) :
    c.scan scanner = (some found, ⟨c.source, r⟩) :=
  scan_eq_some_iff.mpr ⟨r, h, rfl⟩

/-- A scanner that finds nothing leaves the cursor where it is. -/
theorem scan_snd_of_fst_eq_none (h : (c.scan scanner).1 = none) : (c.scan scanner).2 = c := by
  cases hscan : scanner c.rest with
  | none => rw [scan_of_eq_none hscan]
  | some result =>
    rw [scan_of_eq_some hscan] at h
    cases h

theorem scanNumber_fst (c : Cursor) :
    c.scanNumber.1 = (c.scan scanDigits).1.map Number.ofDigits := rfl

/-- A text is found where a quote stands, and it goes up to the next quote. -/
theorem scanText_eq_iff {t : List Char} : c.scanText = (some t, d) ↔
    ∃ r, c.rest = '"' :: (t ++ '"' :: r) ∧ '"' ∉ t ∧ d = ⟨c.source, r⟩ := by
  simp only [scanText, scan_eq_some_iff, scanText_eq_some_iff, and_assoc]

/-- A word is the longest run of its characters, if there are any. -/
theorem scanWord_eq_iff {w : List Char} : c.scanWord = (some w, d) ↔
    w ≠ [] ∧ IsLongestRun isWordChar w c.rest ∧ d = ⟨c.source, c.rest.drop w.length⟩ := by
  rw [scanWord, scan_eq_some_iff, isLongestRun_iff]
  constructor
  · rintro ⟨r, hscan, rfl⟩
    obtain ⟨hrest, hword⟩ := scanWord_eq_some_iff.mp hscan
    obtain ⟨htake, -⟩ := takeWhile_eq_and_dropWhile_eq hword.wordChar hword.boundary
    rw [hrest, htake, List.drop_left]
    exact ⟨hword.ne_nil, rfl, rfl⟩
  · rintro ⟨hne, rfl, rfl⟩
    refine ⟨_, ?_, rfl⟩
    rw [drop_length_takeWhile, Syntax.scanWord, List.isEmpty_eq_false_iff.mpr hne]
    rfl

end Scan

/-! ## One operation -/

/-- A scan passes over the characters that the scanner takes off, if it knows their bytes. -/
theorem exists_scan_between {before rest : List Char}
    {scanner : List Char → Option (List Char × List Char)} {bytes : List Char → Nat}
    (h : ∀ found r, scanner rest = some (found, r) →
      ∃ passed, rest = passed ++ r ∧ bytes found = utf8Length passed) :
    ∃ passed rest', rest = passed ++ rest' ∧
      ((between before rest).scan scanner).2 = between (before ++ passed) rest' ∧
      ((between before rest).scan scanner).1.elim 0 bytes = utf8Length passed := by
  cases hscan : scanner rest with
  | none =>
    rw [scan_of_eq_none hscan]
    exact ⟨[], rest, rfl, by rw [List.append_nil], rfl⟩
  | some result =>
    obtain ⟨found, r⟩ := result
    obtain ⟨passed, hrest, hbytes⟩ := h found r hscan
    rw [scan_of_eq_some hscan]
    refine ⟨passed, r, hrest, ?_, hbytes⟩
    rw [← between_append, ← hrest]
    rfl

/-- An operation passes over some characters, and counts their bytes. -/
theorem Operation.exists_perform_between (op : Operation) (before rest : List Char) :
    ∃ passed rest', rest = passed ++ rest' ∧
      op.perform (between before rest) = between (before ++ passed) rest' ∧
      op.advance (between before rest) = utf8Length passed := by
  have hlook : ∃ passed rest', rest = passed ++ rest' ∧
      between before rest = between (before ++ passed) rest' ∧ 0 = utf8Length passed :=
    ⟨[], rest, rfl, by rw [List.append_nil], rfl⟩
  cases op with
  | eat ch =>
    rw [perform, advance, Cursor.eat]
    by_cases hcheck : (between before rest).check ch = true
    · rw [if_pos hcheck, if_pos hcheck]
      have hhead : rest.head? = some ch := beq_iff_eq.mp hcheck
      obtain ⟨rest', rfl⟩ := List.head?_eq_some_iff.mp hhead
      refine ⟨[ch], rest', rfl, ?_, ?_⟩
      · rw [← between_append]
        rfl
      · rw [utf8Length_cons]
        rfl
    · rw [if_neg hcheck, if_neg hcheck]
      exact hlook
  | skipSeparators =>
    obtain ⟨-, passed, hrest, -⟩ := skipSeparators_eq_iff.mp (rfl : Syntax.skipSeparators rest = _)
    refine ⟨passed, _, hrest, ?_, ?_⟩
    · rw [← between_append, ← hrest]
      rfl
    · obtain ⟨k, -, hrounds⟩ := exists_rounds rest
      have hbytes := hrounds.separatorBytes_add
      have hsum := congrArg utf8Length hrest
      rw [utf8Length_append] at hsum
      change separatorBytes rest = utf8Length passed
      omega
  | scanText =>
    refine exists_scan_between fun t r hscan => ?_
    obtain ⟨hrest, -⟩ := scanText_eq_some_iff.mp hscan
    exact ⟨'"' :: (t ++ ['"']), by rw [hrest]; simp, (utf8Length_quoted t).symm⟩
  | scanNumber =>
    refine exists_scan_between fun digits r hscan => ?_
    obtain ⟨hrest, hnumber⟩ := scanDigits_eq_some_iff.mp hscan
    exact ⟨digits, hrest, (utf8Length_of_isDigit hnumber.digit).symm⟩
  | scanWord =>
    refine exists_scan_between fun w r hscan => ?_
    exact ⟨w, (scanWord_eq_some_iff.mp hscan).1, rfl⟩
  | rest | atEnd | peek | check | excerpt => exact hlook

/-! ## Some operations -/

/-- Some operations pass over some characters, so the position does not go back. -/
theorem exists_after_between (ops : List Operation) (before rest : List Char) :
    ∃ passed rest', rest = passed ++ rest' ∧
      (between before rest).after ops = between (before ++ passed) rest' := by
  induction ops generalizing before rest with
  | nil => exact ⟨[], rest, rfl, by rw [List.append_nil]; rfl⟩
  | cons op ops ih =>
    obtain ⟨passed, rest₁, rfl, hperform, -⟩ := op.exists_perform_between before rest
    obtain ⟨passed₁, rest', rfl, hafter⟩ := ih (before ++ passed) rest₁
    refine ⟨passed ++ passed₁, rest', (List.append_assoc _ _ _).symm, ?_⟩
    rw [← List.append_assoc before, ← hafter, ← hperform]
    rfl

/-- Behind any operations, the cursor stands between two characters of the source. -/
theorem exists_between_of_after (source : List Char) (ops : List Operation) :
    ∃ before rest, source = before ++ rest ∧ (start source).after ops = between before rest := by
  obtain ⟨before, rest, hsource, hafter⟩ := exists_after_between ops [] source
  exact ⟨before, rest, hsource, hafter⟩

/-- Behind any operations on a cursor at the start of a source, the position is the number of bytes of
some whole characters of the source, and what lies ahead are the others. Every operation adds the bytes
that it counts to the position, so no operations take the cursor back. An `eat` that fails and a scan
that finds nothing leave it where it is. A text is what stands between a quote at the cursor and the
next quote, and a word is the longest run of its characters at the cursor, if it is not empty. -/
theorem operations_exact (source : List Char) (ops : List Operation) :
    let c := (start source).after ops
    (∃ before, source = before ++ c.rest ∧ c.position = utf8Length before ∧
      (Text.encoded source).take c.position = Text.encoded before ∧
      (Text.encoded source).drop c.position = Text.encoded c.rest) ∧
    (∀ op : Operation, (op.perform c).position = c.position + op.advance c) ∧
    (∀ more, c.position ≤ (c.after more).position) ∧
    (∀ ch, (c.eat ch).1 = false → (c.eat ch).2 = c) ∧
    (c.scanText.1 = none → c.scanText.2 = c) ∧
    (c.scanNumber.1 = none → c.scanNumber.2 = c) ∧
    (c.scanWord.1 = none → c.scanWord.2 = c) ∧
    (∀ t d, c.scanText = (some t, d) ↔
      ∃ r, c.rest = '"' :: (t ++ '"' :: r) ∧ '"' ∉ t ∧ d = ⟨source, r⟩) ∧
    ∀ w d, c.scanWord = (some w, d) ↔
      w ≠ [] ∧ IsLongestRun isWordChar w c.rest ∧ d = ⟨source, c.rest.drop w.length⟩ := by
  intro c
  obtain ⟨before, rest, hsource, hc⟩ := exists_between_of_after source ops
  change c = between before rest at hc
  have hcsource : c.source = source := by rw [hc, hsource]; rfl
  have hposition : c.position = utf8Length before := by rw [hc, position_between]
  refine ⟨⟨before, ?_, hposition, ?_, ?_⟩, fun op => ?_, fun more => ?_, fun ch => ?_,
    scan_snd_of_fst_eq_none, fun h => ?_, scan_snd_of_fst_eq_none, fun t d => ?_, fun w d => ?_⟩
  · rw [hc, hsource]
    rfl
  · rw [hposition, hsource, take_encoded_append]
  · rw [hposition, hsource, drop_encoded_append, hc]
    rfl
  · obtain ⟨passed, rest', -, hperform, hadvance⟩ := op.exists_perform_between before rest
    rw [hc, hperform, hadvance, position_between, position_between, utf8Length_append]
  · obtain ⟨passed, rest', -, hafter⟩ := exists_after_between more before rest
    rw [hc, hafter, position_between, position_between, utf8Length_append]
    exact Nat.le_add_right _ _
  · rw [eat]
    split
    · rintro ⟨⟩
    · intro _
      rfl
  · rw [scanNumber_fst, Option.map_eq_none_iff] at h
    exact scan_snd_of_fst_eq_none h
  · rw [scanText_eq_iff, hcsource]
  · rw [scanWord_eq_iff, hcsource]

end Cursor

end Egg.Syntax
