import Egg.CommandLine.Exec
import Egg.Proofs.Expr.Equality
import Egg.Proofs.Syntax.RoundTrip
import Egg.Proofs.Syntax.Separators
import Egg.Proofs.Text.Encoding
import Mathlib

/-!
# Printed text is canonical

A tree that was read is printed as text that is read as the same tree, except that a number too large
to be finite is printed as the word `Infinity` and comes back as that word. The word is printed as
the number was. So printing is done once and for all: what `parse` writes for a file it writes again
when it is given its own output.
-/

namespace Egg

open Syntax (parse)

/-! ## Numbers that digits denote -/

namespace Number

/-- Digits denote the positive one of the two zeros. -/
theorem ofNat_eq_zero {k : Nat} (h : (ofNat k).isZero = true) : ofNat k = ⟨0⟩ := by
  have hrank : nearestRank k = 0 := by rw [← toNat_rank_ofNat, isZero_eq_true.mp h]
  rw [ofNat, hrank]
  rfl

/-- Digits denote the positive one of the two infinities. -/
theorem ofNat_eq_infinity {k : Nat} (h : (ofNat k).isInfinite = true) : ofNat k = infinity := by
  rcases ofNat_isNatural_or_eq_infinity k with hnatural | heq
  · rw [hnatural.finite.2] at h
    cases h
  · exact heq

end Number

namespace Expr

mutual

/-- The tree with the word `Infinity` in place of every infinite number. -/
def spellInfinity : Expr → Expr
  | .number n => if n.isInfinite then .word "Infinity" else .number n
  | .text s => .text s
  | .word w => .word w
  | .apply f args => .apply f.spellInfinity (spellInfinityList args)

/-- The trees with the word `Infinity` in place of every infinite number. -/
def spellInfinityList : List Expr → List Expr
  | [] => []
  | e :: es => e.spellInfinity :: spellInfinityList es

end

theorem spellInfinityList_eq_map (es : List Expr) : spellInfinityList es = es.map spellInfinity := by
  induction es with
  | nil => rfl
  | cons e es ih => rw [spellInfinityList, ih, List.map_cons]

/-- A tree whose words and texts can be read, and whose numbers are those that digits denote. -/
def Written (e : Expr) : Prop := e.WrittenWith fun n => ∃ k, n = .ofNat k

theorem Written.exists_ofNat {n : Number} (h : (Expr.number n).Written) : ∃ k, n = .ofNat k :=
  h.number n (by simp [leaves])

/-- Nothing but infinite numbers changes in a tree that was read. -/
theorem Written.reread_eq {e : Expr} (h : e.Written) : e.reread = e.spellInfinity := by
  induction e using Expr.induction with
  | number n =>
    obtain ⟨k, rfl⟩ := h.exists_ofNat
    rw [reread, spellInfinity]
    split_ifs with hinf hzero
    · rfl
    · rw [Number.ofNat_eq_zero hzero]
    · rfl
  | text s => rfl
  | word w => rfl
  | apply f args ihf ihargs =>
    have hargs : args.map reread = args.map spellInfinity :=
      List.map_congr_left fun a ha => ihargs a ha (h.arg ha)
    rw [reread, spellInfinity, ihf h.operator, rereadList_eq_map, spellInfinityList_eq_map, hargs]

/-- The word is printed as the number was. -/
theorem Written.displayTo_spellInfinity {e : Expr} (h : e.Written) (rest : List Char) :
    e.spellInfinity.displayTo rest = e.displayTo rest := by
  induction e using Expr.induction generalizing rest with
  | number n =>
    obtain ⟨k, rfl⟩ := h.exists_ofNat
    rw [spellInfinity]
    split_ifs with hinf
    · rw [Number.ofNat_eq_infinity hinf]
      rfl
    · rfl
  | text s => rfl
  | word w => rfl
  | apply f args ihf ihargs =>
    have hargs : List.Forall₂ (fun a b => ∀ rest, a.displayTo rest = b.displayTo rest)
        (args.map spellInfinity) args := by
      rw [List.forall₂_map_left_iff, List.forall₂_same]
      exact fun a ha => ihargs a ha (h.arg ha)
    rw [spellInfinity, displayTo, displayTo, spellInfinityList_eq_map, displayArgsTo_eq hargs,
      ihf h.operator]

theorem Written.of_parse {s : String} {e : Expr} (h : parse s = .ok e) : e.Written :=
  Syntax.writtenWith_of_parse (fun k => ⟨k, rfl⟩) h

theorem parse_display_of_parse {s : String} {e : Expr} (h : parse s = .ok e) :
    parse e.display = .ok e.spellInfinity := by
  rw [(Syntax.written_of_parse h).parse_display, (Written.of_parse h).reread_eq]

theorem display_spellInfinity_of_parse {s : String} {e : Expr} (h : parse s = .ok e) :
    e.spellInfinity.display = e.display := by
  rw [display, display, (Written.of_parse h).displayTo_spellInfinity]

end Expr

/-! ## Files -/

namespace CommandLine

theorem text_contents_toUTF8 (path text : String) :
    (FileRead.contents text.toUTF8).text path = .ok text := by
  simp only [FileRead.text, Text.fromUTF8?_toUTF8]

theorem reply_parse {files : String → FileRead} {path text : String} {e : Expr}
    (hfile : (files path).text path = .ok text) (h : parse text = .ok e) (steps : Nat)
    (input : ByteArray) :
    Command.reply steps files input (.parse path false) = some { out := e.display ++ "\n" } := by
  simp only [Command.reply, hfile, parseReply, h]
  rfl

/-- The text that a tree is printed as is read as the same tree with infinite numbers spelled out,
and is printed as itself. So a file with the output of `parse` for another file has the same output,
if the other one holds a program. -/
theorem canonical_form_fixed {s : String} {e : Expr} (h : parse s = .ok e) :
    parse e.display = .ok e.spellInfinity ∧ e.spellInfinity.display = e.display ∧
      ∀ (steps : Nat) (files : String → FileRead) (input : ByteArray) (path copy : String),
        (files path).text path = .ok s →
        Command.reply steps files input (.parse path false) =
          some { status := 0, out := e.display ++ "\n", err := "" } ∧
        (files copy = .contents (e.display ++ "\n").toUTF8 →
          Command.reply steps files input (.parse copy false) =
            Command.reply steps files input (.parse path false)) := by
  have hparse := Expr.parse_display_of_parse h
  have hdisplay := Expr.display_spellInfinity_of_parse h
  refine ⟨hparse, hdisplay, fun steps files input path copy hpath => ?_⟩
  refine ⟨reply_parse hpath h steps input, fun hcopy => ?_⟩
  have htext : (files copy).text copy = .ok (e.display ++ "\n") := by
    rw [hcopy, text_contents_toUTF8]
  rw [reply_parse hpath h, reply_parse htext (Syntax.parse_append_newline hparse), hdisplay]

/-- A file that holds `1` and 309 zeros is printed as `Infinity`, and so is a file with that output. -/
theorem canonical_form_of_large_numeral :
    parse (String.ofList ('1' :: List.replicate 309 '0')) = .ok (.number .infinity) ∧
      parse "Infinity" = .ok (.word "Infinity") ∧
      Command.reply 0
        (fun path =>
          if path = "large.egg" then
            .contents (String.ofList ('1' :: List.replicate 309 '0')).toUTF8
          else .contents "Infinity\n".toUTF8)
        .empty (.parse "copy.egg" false) = some { out := "Infinity\n" } := by
  have hdisplay : (Expr.number .infinity).display = "Infinity" := rfl
  have hparse := Expr.parse_large_numeral
  obtain ⟨hreread, -, hfiles⟩ := canonical_form_fixed hparse
  rw [hdisplay] at hreread hfiles
  refine ⟨hparse, hreread, ?_⟩
  obtain ⟨hlarge, hcopy⟩ := hfiles 0
    (fun path =>
      if path = "large.egg" then .contents (String.ofList ('1' :: List.replicate 309 '0')).toUTF8
      else .contents "Infinity\n".toUTF8)
    .empty "large.egg" "copy.egg" (text_contents_toUTF8 _ _)
  exact (hcopy rfl).trans hlarge

end CommandLine

end Egg
