import Egg.CommandLine.Exec
import Egg.Proofs.Syntax.CanonicalForm
import Egg.Proofs.Text.LineSplitting
import Mathlib

/-!
# Files that hold a source

A source can be kept in a file with line feeds alone or with a carriage return before each of them, and
its last line may or may not have a line ending. The program of the file is the source itself in all
four cases (`programOf_of_mem_fileTexts`), so running the file is evaluating the source, also if it
fails or does not end (`run_file_eq_eval_source`).
-/

namespace Egg

namespace Text

/-- The text with a carriage return put before each line feed. -/
def withReturns (text : List Char) : List Char :=
  text.flatMap fun c => if c = '\n' then ['\r', '\n'] else [c]

theorem withReturns_cons_of_ne {c : Char} (hc : c ≠ '\n') (cs : List Char) :
    withReturns (c :: cs) = c :: withReturns cs := by
  rw [withReturns, List.flatMap_cons, if_neg hc]
  rfl

theorem withReturns_newline (cs : List Char) :
    withReturns ('\n' :: cs) = '\r' :: '\n' :: withReturns cs := rfl

/-- In a text that has no carriage return, dropping them again gives the text. -/
theorem dropReturns_withReturns_append {cs : List Char} (h : '\r' ∉ cs) (rest : List Char) :
    dropReturns (withReturns cs ++ rest) = cs ++ dropReturns rest := by
  induction cs with
  | nil => rfl
  | cons c cs ih =>
    rw [List.mem_cons, not_or] at h
    by_cases hc : c = '\n'
    · subst hc
      have hpair : dropReturns ('\r' :: '\n' :: (withReturns cs ++ rest)) =
          dropReturns ('\n' :: (withReturns cs ++ rest)) := if_pos ⟨rfl, rfl⟩
      rw [withReturns_newline, List.cons_append, List.cons_append, hpair,
        dropReturns_cons_of_ne (by decide), ih h.2, List.cons_append]
    · rw [withReturns_cons_of_ne hc, List.cons_append, dropReturns_cons_of_ne (Ne.symm h.1), ih h.2,
        List.cons_append]

theorem getLast?_withReturns (cs : List Char) : (withReturns cs).getLast? = cs.getLast? := by
  rcases List.eq_nil_or_concat cs with rfl | ⟨before, c, rfl⟩
  · rfl
  · rw [List.concat_eq_append, withReturns, List.flatMap_append, List.getLast?_append,
      List.getLast?_append]
    by_cases hc : c = '\n'
    · simp [hc]
    · simp [hc]

end Text

namespace CommandLine

open Text (dropReturns dropReturns_eq withReturns dropReturns_withReturns_append)

/-- The texts that a file with the lines of a source may hold: with line feeds alone or with carriage
returns before them, and without or with a line ending behind the last line. -/
def fileTexts (source : String) : List String :=
  let returns := String.ofList (withReturns source.toList)
  [source, source ++ "\n", returns, returns ++ "\r\n"]

/-- The program of a file is what is left without carriage returns and without the last line feed. -/
theorem programOf_eq {text source : String} (h : dropReturns text.toList =
      source.toList ++ if text.toList.getLast? = some '\n' then ['\n'] else []) :
    programOf text = source := by
  rw [dropReturns_eq] at h
  rw [programOf, List.append_cancel_right h, String.ofList_toList]

theorem programOf_of_mem_fileTexts {source text : String} (hreturn : '\r' ∉ source.toList)
    (hlast : source.toList.getLast? ≠ some '\n') (h : text ∈ fileTexts source) :
    programOf text = source := by
  have hplain : ∀ rest, dropReturns (source.toList ++ rest) = source.toList ++ dropReturns rest :=
    Text.dropReturns_of_not_mem hreturn
  have hreturns := dropReturns_withReturns_append hreturn
  have hlast' : (withReturns source.toList).getLast? ≠ some '\n' := by
    rwa [Text.getLast?_withReturns]
  simp only [fileTexts, List.mem_cons, List.not_mem_nil, or_false] at h
  rcases h with rfl | rfl | rfl | rfl
  · refine programOf_eq ?_
    have hnone := hplain []
    rw [List.append_nil] at hnone
    rw [hnone, if_neg hlast]
    rfl
  · refine programOf_eq ?_
    rw [String.toList_append, hplain, if_pos (by simp)]
    rfl
  · refine programOf_eq ?_
    have hnone := hreturns []
    rw [List.append_nil] at hnone
    rw [String.toList_ofList, hnone, if_neg hlast']
    rfl
  · refine programOf_eq ?_
    rw [String.toList_append, String.toList_ofList, hreturns, if_pos (by simp)]
    rfl

/-- Line endings do not change what a file runs. For a source without carriage returns that does not
end in a line feed, each of the four files runs the source itself. So the command that runs the file
and shows the result replies as the command that evaluates the source: both write the same to the two
streams and end with the same status, or neither has ended yet. -/
theorem run_file_eq_eval_source {source : String} (hreturn : '\r' ∉ source.toList)
    (hlast : source.toList.getLast? ≠ some '\n') :
    ∀ text ∈ fileTexts source, programOf text = source ∧
      ∀ (files : String → FileRead) (path : String), files path = .contents text.toUTF8 →
        ∀ (steps : Nat) (input : ByteArray),
          (∀ showResult, Command.reply steps files input (.run path showResult) =
            runReply steps source showResult) ∧
          ∀ args more, path? args = some path → "--show-result" ∈ args ∨ "-r" ∈ args →
            (Command.ofArgs ("run" :: args)).reply steps files input =
              (Command.ofArgs ("eval" :: source :: more)).reply steps files input := by
  intro text htext
  have hprogram := programOf_of_mem_fileTexts hreturn hlast htext
  refine ⟨hprogram, fun files path hfile steps input => ?_⟩
  have hrun : ∀ showResult, Command.reply steps files input (.run path showResult) =
      runReply steps source showResult := by
    intro showResult
    have hread : (files path).text path = .ok text := by rw [hfile, text_contents_toUTF8]
    simp only [Command.reply, hread, hprogram]
  refine ⟨hrun, fun args more hpath hshow => ?_⟩
  have hcommand : Command.ofArgs ("run" :: args) = .run path true := by
    have hcontains : (args.contains "--show-result" || args.contains "-r") = true := by
      simpa using hshow
    simp only [Command.ofArgs, ↓reduceIte, hpath, hcontains]
  rw [hcommand, hrun]
  rfl

/-- A text over two lines and an empty line, in a program that prints and then fails. -/
theorem run_file_eq_eval_source_failing :
    (Command.ofArgs ["run", "-r", "f.egg"]).reply 30
        (fun _ => .contents "do(print(\"a\r\n\"),\r\n\r\n y)\r\n".toUTF8) .empty =
      some ⟨1, "a\n\n", "error: undefined variable: y\n"⟩ := by
  have hrun : (Program.runSource 30 "do(print(\"a\n\"),\n\n y)" (.initial (.buffer ""))).map
      (fun o => (o.1, o.2.sink)) =
      some (.error (.evaluation (.undefinedVariable "y")), .buffer "a\n\n") := by
    cbv
  obtain ⟨⟨result, s⟩, hend, heq⟩ := Option.map_eq_some_iff.mp hrun
  obtain ⟨rfl, hsink⟩ := Prod.mk.inj heq
  have hreturn : '\r' ∉ "do(print(\"a\n\"),\n\n y)".toList := by decide
  have hlast : "do(print(\"a\n\"),\n\n y)".toList.getLast? ≠ some '\n' := by decide
  have htext : "do(print(\"a\r\n\"),\r\n\r\n y)\r\n" ∈ fileTexts "do(print(\"a\n\"),\n\n y)" := by
    decide
  obtain ⟨-, hfile⟩ := run_file_eq_eval_source hreturn hlast _ htext
  have hreply := (hfile (fun _ => .contents _) "f.egg" rfl 30 .empty).2 ["-r", "f.egg"] []
    (by decide) (by decide)
  refine hreply.trans ?_
  change (Program.runSource 30 _ _).map (replyTo true) = _
  rw [hend, Option.map_some, replyTo, hsink]
  rfl

end CommandLine

end Egg
