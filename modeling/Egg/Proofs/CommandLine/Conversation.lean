import Egg.CommandLine.Exec
import Egg.Proofs.Eval.Output
import Egg.Proofs.Eval.Sequencing
import Egg.Proofs.Text.Encoding
import Egg.Proofs.Text.LineSplitting
import Mathlib

/-!
# Conversations

A conversation is a sequence of exchanges. In each of them a line is read and the program on it is run
in the state that the exchanges before have left, and what it printed and came to is the answer. The
reply to an input is the transcript of the conversation over its lines (`repl_transcript`). A line
that is blank or holds no program leaves the state as it was, so that the other exchanges are the same
without it.

Two things are done otherwise than they are said here, and make no difference: the input is split
into lines before it is decoded, and what has been printed is given up after each line.
-/

namespace Egg

/-! ## Blanks around a program -/

namespace Text

/-- The text without the blanks at its start and at its end is `source`. -/
structure Trimmed (text source : List Char) : Prop where
  parts : ∃ before after, text = before ++ source ++ after ∧
    (∀ c ∈ before, isBlank c = true) ∧ ∀ c ∈ after, isBlank c = true
  first : ∀ c ∈ source.head?, isBlank c = false
  last : ∀ c ∈ source.getLast?, isBlank c = false

theorem trimmed_trim (text : List Char) : Trimmed text (trim text) := by
  have hstart := List.takeWhile_append_dropWhile (p := isBlank) (l := text)
  have hend := List.takeWhile_append_dropWhile (p := isBlank) (l := (text.dropWhile isBlank).reverse)
  have hsplit : text.dropWhile isBlank =
      trim text ++ ((text.dropWhile isBlank).reverse.takeWhile isBlank).reverse := by
    rw [trim, ← List.reverse_append, hend, List.reverse_reverse]
  refine ⟨⟨text.takeWhile isBlank, ((text.dropWhile isBlank).reverse.takeWhile isBlank).reverse,
    ?_, fun c hc => Syntax.of_mem_takeWhile hc,
    fun c hc => Syntax.of_mem_takeWhile (List.mem_reverse.mp hc)⟩, fun c hc => ?_, fun c hc => ?_⟩
  · rw [List.append_assoc, ← hsplit, hstart]
  · have hhead : c ∈ (text.dropWhile isBlank).head? := by
      rw [hsplit, List.head?_append, Option.mem_def.mp hc]
      rfl
    exact Syntax.of_mem_head?_dropWhile hhead
  · rw [trim, List.getLast?_reverse] at hc
    exact Syntax.of_mem_head?_dropWhile hc

theorem Trimmed.trim_eq {text source : List Char} (h : Trimmed text source) : trim text = source := by
  obtain ⟨⟨before, after, rfl, hbefore, hafter⟩, hfirst, hlast⟩ := h
  by_cases hnil : source = []
  · subst hnil
    have hblank : ∀ c ∈ before ++ [] ++ after, isBlank c = true := by
      intro c hc
      rw [List.append_nil] at hc
      exact (List.mem_append.mp hc).elim (hbefore c) (hafter c)
    rw [trim, List.dropWhile_eq_nil_iff.mpr hblank]
    rfl
  · have hhead : ∀ c ∈ (source ++ after).head?, isBlank c = false := by
      rwa [List.head?_append_of_ne_nil source hnil]
    have hreverse : ∀ c ∈ source.reverse.head?, isBlank c = false := by rwa [List.head?_reverse]
    have hafter' : ∀ c ∈ after.reverse, isBlank c = true :=
      fun c hc => hafter c (List.mem_reverse.mp hc)
    rw [trim, List.append_assoc, (Syntax.takeWhile_eq_and_dropWhile_eq hbefore hhead).2,
      List.reverse_append, (Syntax.takeWhile_eq_and_dropWhile_eq hafter' hreverse).2,
      List.reverse_reverse]

end Text

/-! ## Exchanges -/

namespace CommandLine

/-- A line and the answer to it. -/
structure Exchange where
  line : String
  /-- What the program on the line printed. -/
  printed : String
  /-- What the program came to, if the line is not blank. -/
  result : Option (Except RunError Value)

namespace Exchange

/-- What is shown as the answer: what was printed, and the value. -/
def out (x : Exchange) : String :=
  match x.result with
  | some (.ok v) => x.printed ++ v.display ++ "\n"
  | _ => x.printed

/-- What is reported: the error. -/
def err (x : Exchange) : String :=
  match x.result with
  | some (.error e) => "error: " ++ e.message ++ "\n"
  | _ => ""

/-- `x.Leads scope s s'`: in the state `s` the line is answered in this way, and leaves `s'`. -/
inductive Leads (scope : ScopeId) (s : State) : Exchange → State → Prop where
  | blank {line : String} (hline : Text.Trimmed line.toList []) : Leads scope s ⟨line, "", none⟩ s
  | run {line source printed : String} {steps : Nat} {r : Except RunError Value} {s' : State}
      (hline : Text.Trimmed line.toList source.toList) (hne : source ≠ "")
      (hrun : Program.runIn steps source scope s = some (r, s'))
      (hprinted : s'.sink = s.sink.append printed) : Leads scope s ⟨line, printed, some r⟩ s'

end Exchange

/-- The exchanges follow upon each other, each in the state that the one before has left. -/
inductive Conversation (scope : ScopeId) : State → List Exchange → State → Prop where
  | nil {s : State} : Conversation scope s [] s
  | cons {x : Exchange} {xs : List Exchange} {s s₁ s' : State} (hx : x.Leads scope s s₁)
      (h : Conversation scope s₁ xs s') : Conversation scope s (x :: xs) s'

/-- What is written in the course of a conversation, up to the end of the input. -/
def transcript (xs : List Exchange) : Reply where
  status := 0
  out := String.join (xs.map fun x => "> " ++ x.out) ++ "> \n"
  err := String.join (xs.map Exchange.err)

theorem transcript_cons (x : Exchange) (xs : List Exchange) :
    transcript (x :: xs) =
      { transcript xs with
        out := prompt ++ x.out ++ (transcript xs).out
        err := x.err ++ (transcript xs).err } := by
  simp [transcript, prompt, String.append_assoc]

/-! ## Turns -/

theorem lineProgram?_eq_none {line : String} :
    lineProgram? line = none ↔ Text.Trimmed line.toList [] := by
  simp only [lineProgram?]
  constructor
  · intro h
    split at h
    · next hnil =>
      have htrim := Text.trimmed_trim line.toList
      rwa [List.isEmpty_iff.mp hnil] at htrim
    · cases h
  · intro h
    rw [h.trim_eq]
    rfl

theorem lineProgram?_eq_some {line source : String} :
    lineProgram? line = some source ↔
      Text.Trimmed line.toList source.toList ∧ source ≠ "" := by
  simp only [lineProgram?]
  constructor
  · intro h
    split at h
    · cases h
    · next hne =>
      cases h
      rw [String.toList_ofList]
      refine ⟨Text.trimmed_trim line.toList, fun hempty => hne ?_⟩
      rw [List.isEmpty_iff, ← String.toList_ofList (l := Text.trim line.toList), hempty]
      rfl
  · rintro ⟨htrim, hne⟩
    have hne' : ¬ source.toList.isEmpty = true := by simpa using hne
    rw [htrim.trim_eq, if_neg hne', String.ofList_toList]

end CommandLine

/-- A run with another sink comes to the same, and hands the same text to that sink. -/
theorem Program.runIn_withSink {steps : Nat} {source : String} {scope : ScopeId} {s s₁ : State}
    {r : Except RunError Value} (h : runIn steps source scope s = some (r, s₁)) :
    ∃ text, s₁.sink = s.sink.append text ∧
      ∀ sink, runIn steps source scope (s.withSink sink) = some (r, s₁.withSink (sink.append text)) := by
  cases hparse : Syntax.parse source with
  | error x =>
    simp only [runIn, start, hparse, Option.some.injEq, Prod.mk.injEq] at h
    obtain ⟨rfl, rfl⟩ := h
    refine ⟨"", s.sink.append_empty.symm, fun sink => ?_⟩
    simp only [runIn, start, hparse, Sink.append_empty]
  | ok e =>
    rw [runIn_of_parse hparse] at h
    obtain ⟨r, rfl, hrun⟩ := ends_of_evaluate h
    refine ⟨lines (Machine.printed steps ⟨.evaluate e scope, [], s⟩), ?_, fun sink => ?_⟩
    · have hsink := Machine.sink_run steps ⟨.evaluate e scope, [], s⟩
      rwa [hrun] at hsink
    · have hother := (Machine.run_withSink steps ⟨.evaluate e scope, [], s⟩ sink).1
      rw [hrun] at hother
      rw [runIn_of_parse hparse]
      exact congrArg Progress.outcome? hother

namespace CommandLine

variable {scope : ScopeId} {s s₁ s' : State}

/-- The state with nothing held. -/
def cleared (s : State) : State := s.withSink (.buffer "")

theorem lineReply_eq {t : State} {printed : String} (h : t.sink = .buffer printed) (line : String)
    (r : Except RunError Value) :
    lineReply (r, t) =
      ⟨0, Exchange.out ⟨line, printed, some r⟩, Exchange.err ⟨line, printed, some r⟩⟩ := by
  cases r with
  | ok v => simp [lineReply, replyTo, h, Sink.held, Exchange.out, Exchange.err]
  | error e =>
    simp [lineReply, replyTo, h, Sink.held, Exchange.out, Exchange.err, Reply.failure, errorLine]

/-- What a turn replies is what the exchange shows, and nothing stays held. -/
theorem exists_leads_of_turn {steps : Nat} {line : String} {reply : Reply} {t : State}
    (h : turn steps line scope (cleared s) = some (reply, t)) :
    ∃ (x : Exchange) (s₁ : State), x.line = line ∧ x.Leads scope s s₁ ∧
      reply = ⟨0, x.out, x.err⟩ ∧ t = cleared s₁ := by
  unfold turn at h
  split at h
  · next hline =>
    cases h
    exact ⟨_, s, rfl, .blank (lineProgram?_eq_none.mp hline), rfl, rfl⟩
  · next source hline =>
    obtain ⟨htrim, hne⟩ := lineProgram?_eq_some.mp hline
    obtain ⟨⟨r, t₁⟩, hrun, heq⟩ := Option.map_eq_some_iff.mp h
    obtain ⟨rfl, rfl⟩ := Prod.mk.inj heq
    obtain ⟨text, htext, hother⟩ := Program.runIn_withSink hrun
    have hheld : t₁.sink = .buffer text := by
      rw [htext]
      exact congrArg Sink.buffer (String.empty_append)
    refine ⟨⟨line, text, some r⟩, _, rfl, .run htrim hne (hother s.sink) rfl,
      lineReply_eq hheld line r, ?_⟩
    obtain ⟨heap, sink, tag⟩ := t₁
    obtain rfl : sink = .buffer text := hheld
    rfl

/-- An exchange adds to what is held, and the turn replies just that, given enough steps. -/
theorem Exchange.Leads.turn_eq {x : Exchange} (h : x.Leads scope s s₁) {held : String}
    (hs : s.sink = .buffer held) :
    (∃ held', s₁.sink = .buffer held') ∧
      ∃ m, ∀ n ≥ m, turn n x.line scope (cleared s) = some (⟨0, x.out, x.err⟩, cleared s₁) := by
  cases h with
  | blank hline =>
    refine ⟨⟨held, hs⟩, 0, fun n _ => ?_⟩
    rw [turn, lineProgram?_eq_none.mpr hline]
    rfl
  | @run line source printed steps r _ hline hne hrun hprinted =>
    obtain ⟨text, htext, hother⟩ := Program.runIn_withSink hrun
    rw [hs] at hprinted htext
    have heq : held ++ printed = held ++ text := Sink.buffer.inj (hprinted.symm.trans htext)
    obtain rfl : printed = text := (String.append_right_inj held).mp heq
    refine ⟨⟨_, hprinted⟩, steps, fun n hn => ?_⟩
    have hturn := Program.runIn_mono hn (hother (.buffer ""))
    have hheld : (s₁.withSink ((Sink.buffer "").append printed)).sink = .buffer printed :=
      congrArg Sink.buffer (String.empty_append)
    rw [turn, lineProgram?_eq_some.mpr ⟨hline, hne⟩, cleared]
    simp only [hturn, Option.map_some, lineReply_eq hheld line r]
    rfl

/-! ## Whole conversations -/

theorem exists_conversation_of_converse {steps : Nat} {ls : List String} {reply : Reply}
    (h : converse steps scope (ls.map some) (cleared s) = some reply) :
    ∃ xs s', xs.map Exchange.line = ls ∧ Conversation scope s xs s' ∧ reply = transcript xs := by
  induction ls generalizing s reply with
  | nil =>
    cases h
    exact ⟨[], s, rfl, .nil, rfl⟩
  | cons line ls ih =>
    rw [List.map_cons, converse] at h
    split at h
    · cases h
    · next first t hturn =>
      obtain ⟨x, s₁, rfl, hx, rfl, rfl⟩ := exists_leads_of_turn hturn
      obtain ⟨later, hlater, rfl⟩ := Option.map_eq_some_iff.mp h
      obtain ⟨xs, s', rfl, hxs, rfl⟩ := ih hlater
      exact ⟨x :: xs, s', rfl, .cons hx hxs, (transcript_cons x xs).symm⟩

theorem Conversation.converse_eq {xs : List Exchange} (h : Conversation scope s xs s')
    {held : String} (hs : s.sink = .buffer held) :
    ∃ m, ∀ n ≥ m, converse n scope (xs.map fun x => some x.line) (cleared s) =
      some (transcript xs) := by
  induction h generalizing held with
  | nil => exact ⟨0, fun n _ => rfl⟩
  | @cons x xs s s₁ s' hx _ ih =>
    obtain ⟨⟨held', hs₁⟩, m, hturn⟩ := hx.turn_eq hs
    obtain ⟨m', hlater⟩ := ih hs₁
    refine ⟨max m m', fun n hn => ?_⟩
    rw [List.map_cons, converse, hturn n (le_of_max_le_left hn)]
    simp only [hlater n (le_of_max_le_right hn), Option.map_some]
    rw [transcript_cons]

/-! ## Lines that change nothing -/

/-- The line is blank, or what stands on it is no program. -/
def Inert (line : String) : Prop :=
  ∃ source : String, Text.Trimmed line.toList source.toList ∧
    (source = "" ∨ ∃ x, Syntax.parse source = .error x)

/-- Some exchanges over inert lines are left out. -/
inductive WithoutInert : List Exchange → List Exchange → Prop where
  | nil : WithoutInert [] []
  | keep {x : Exchange} {xs ys : List Exchange} (h : WithoutInert xs ys) :
      WithoutInert (x :: xs) (x :: ys)
  | leaveOut {x : Exchange} {xs ys : List Exchange} (hx : Inert x.line) (h : WithoutInert xs ys) :
      WithoutInert (x :: xs) ys

theorem Inert.state_eq {x : Exchange} (hx : Inert x.line) (h : x.Leads scope s s₁) : s₁ = s := by
  obtain ⟨source, htrim, hsource⟩ := hx
  cases h with
  | blank => rfl
  | @run line source' _ steps r _ hline hne hrun =>
    have hsame : source'.toList = source.toList := hline.trim_eq.symm.trans htrim.trim_eq
    obtain rfl : source' = source := String.toList_injective hsame
    rcases hsource with hempty | ⟨x, hparse⟩
    · exact absurd hempty hne
    · simp only [Program.runIn, Program.start, hparse, Option.some.injEq, Prod.mk.injEq] at hrun
      exact hrun.2.symm

theorem WithoutInert.conversation {xs ys : List Exchange} (hxs : WithoutInert xs ys)
    (h : Conversation scope s xs s') : Conversation scope s ys s' := by
  induction hxs generalizing s with
  | nil => exact h
  | keep _ ih =>
    cases h with
    | cons hx h => exact .cons hx (ih h)
  | leaveOut hx _ ih =>
    cases h with
    | cons hleads h =>
      obtain rfl := hx.state_eq hleads
      exact ih h

theorem WithoutInert.sublist {xs ys : List Exchange} (h : WithoutInert xs ys) : ys.Sublist xs := by
  induction h with
  | nil => exact .slnil
  | keep _ ih => exact ih.cons_cons _
  | leaveOut _ _ ih => exact ih.cons _

/-! ## Inputs -/

theorem inputLinesFrom_append {line : List UInt8} (hline : 10 ∉ line) (before rest : List UInt8) :
    inputLinesFrom before (line ++ rest) = inputLinesFrom (line.reverse ++ before) rest := by
  induction line generalizing before with
  | nil => rfl
  | cons b line ih =>
    rw [List.mem_cons, not_or] at hline
    rw [List.cons_append, inputLinesFrom, if_neg (Ne.symm hline.1), ih hline.2, List.reverse_cons,
      List.append_assoc]
    rfl

theorem inputLinesFrom_encoded {text : List Char} {ls : List (List Char)} (h : Text.Lines text ls) :
    inputLinesFrom [] (Text.encoded text) = ls.map Text.encoded := by
  induction h with
  | nil => rfl
  | @last line hne hline =>
    have hlast := inputLinesFrom_append (Text.newline_not_mem_encoded hline) [] []
    rw [List.append_nil, List.append_nil] at hlast
    rw [hlast, inputLinesFrom]
    simp [Text.encoded_ne_nil hne]
  | @cons line rest ls hline _ ih =>
    have hbytes : Text.encoded (line ++ '\n' :: rest) = Text.encoded line ++ 10 :: Text.encoded rest :=
      List.flatMap_append
    have hending : Text.encoded (line ++ ['\n']) = Text.encoded line ++ [10] := List.flatMap_append
    rw [hbytes, inputLinesFrom_append (Text.newline_not_mem_encoded hline), inputLinesFrom,
      if_pos rfl, ih, List.map_cons, hending]
    simp

/-- The lines of an encoded text are those of the text. -/
theorem inputLines_toUTF8 {text : String} {ls : List String}
    (h : Text.Lines text.toList (ls.map String.toList)) : inputLines text.toUTF8 = ls.map some := by
  rw [inputLines, Text.toList_toUTF8, inputLinesFrom_encoded h, List.map_map, List.map_map]
  exact List.map_congr_left fun line _ => Text.fromUTF8?_encoded line

/-- The scope that all lines are run in, and the state before the first one. -/
def opening : ScopeId × State := (State.initial (.buffer "")).pushProgram

/-- The reply to an encoded text is the transcript of a conversation over its lines, and each such
conversation has its transcript as the reply. -/
theorem reply_repl_iff {text : String} {ls : List String}
    (hls : Text.Lines text.toList (ls.map String.toList)) (files : String → FileRead) (reply : Reply) :
    (∃ steps, Command.reply steps files text.toUTF8 .repl = some reply) ↔
      ∃ xs s, xs.map Exchange.line = ls ∧ Conversation opening.1 opening.2 xs s ∧
        reply = transcript xs := by
  have hreply : ∀ steps, Command.reply steps files text.toUTF8 .repl =
      converse steps opening.1 (ls.map some) (cleared opening.2) := by
    intro steps
    rw [← inputLines_toUTF8 hls]
    rfl
  constructor
  · rintro ⟨steps, h⟩
    rw [hreply] at h
    exact exists_conversation_of_converse h
  · rintro ⟨xs, s, rfl, hxs, rfl⟩
    have hsink : opening.2.sink = .buffer "" := rfl
    obtain ⟨m, hm⟩ := hxs.converse_eq hsink
    refine ⟨m, ?_⟩
    rw [hreply, List.map_map]
    exact hm m (Nat.le_refl m)

/-- An input has lines. If they all come to an end, the reply is the transcript of the conversation over
them, in which every line whose program ends is answered. A line that is blank or holds no program
does not change the state. So without some such lines the rest of the conversation is the same, and
the reply to the remaining lines is its transcript. -/
theorem repl_transcript (files : String → FileRead) (text : String) :
    (∃ ls : List String, Text.Lines text.toList (ls.map String.toList)) ∧
    ∀ ls : List String, Text.Lines text.toList (ls.map String.toList) →
      (∀ reply, (∃ steps, Command.reply steps files text.toUTF8 .repl = some reply) ↔
        ∃ xs s, xs.map Exchange.line = ls ∧ Conversation opening.1 opening.2 xs s ∧
          reply = transcript xs) ∧
      (∀ (line source : String) (s s' : State) (steps : Nat) (r : Except RunError Value),
        Text.Trimmed line.toList source.toList → source ≠ "" →
        Program.runIn steps source opening.1 s = some (r, s') →
        ∃ printed, Exchange.Leads opening.1 s ⟨line, printed, some r⟩ s') ∧
      (∀ (x : Exchange) (s s' : State), x.Leads opening.1 s s' → Inert x.line → s' = s) ∧
      ∀ xs s, xs.map Exchange.line = ls → Conversation opening.1 opening.2 xs s →
        ∀ ys, WithoutInert xs ys → Conversation opening.1 opening.2 ys s ∧
          ∃ steps, Command.reply steps files (String.join (ys.map Exchange.line)).toUTF8 .repl =
            some (transcript ys) := by
  obtain ⟨lines, hlines⟩ := Text.exists_lines text.toList
  refine ⟨⟨lines.map String.ofList, by simpa using hlines⟩, fun ls hls => ?_⟩
  refine ⟨reply_repl_iff hls files, ?_, fun x s s' h hx => hx.state_eq h, ?_⟩
  · intro line source s s' steps r htrim hne hrun
    obtain ⟨printed, hprinted, -⟩ := Program.runIn_withSink hrun
    exact ⟨printed, .run htrim hne hrun hprinted⟩
  · intro xs s hxs hconv ys hys
    have hkept := hys.conversation hconv
    have hsub : ((ys.map Exchange.line).map String.toList).Sublist (ls.map String.toList) := by
      rw [← hxs]
      exact (hys.sublist.map _).map _
    have hrest : Text.Lines (String.join (ys.map Exchange.line)).toList
        ((ys.map Exchange.line).map String.toList) := by
      have hflatten := hls.sublist hsub
      rwa [← List.flatMap_def, ← String.toList_join] at hflatten
    exact ⟨hkept, (reply_repl_iff hrest files _).mpr ⟨ys, s, rfl, hkept, rfl⟩⟩

/-- A line that holds no program and can be left out, a line that fails after it has defined a variable,
and one that finds the variable. -/
theorem repl_transcript_of_failing_lines :
    (∃ steps, Command.reply steps (fun _ => .missing) ")\ndo(define(x, \"a\"), y)\nx".toUTF8 .repl =
      some ⟨0, "> > > a\n> \n",
        "error: syntax error: unexpected input: \x60)\x60\nerror: undefined variable: y\n"⟩) ∧
    ∃ steps, Command.reply steps (fun _ => .missing) "do(define(x, \"a\"), y)\nx".toUTF8 .repl =
      some ⟨0, "> > a\n> \n", "error: undefined variable: y\n"⟩ := by
  have hruns : ((Program.runIn 20 "do(define(x, \"a\"), y)" opening.1 opening.2).bind fun first =>
      (Program.runIn 20 "x" opening.1 first.2).map fun second =>
        ((first.1, first.2.sink), (second.1, second.2.sink))) =
      some ((.error (.evaluation (.undefinedVariable "y")), .buffer ""),
        (.ok (.text "a"), .buffer "")) := by
    cbv
  obtain ⟨⟨r₁, s₁⟩, hfirst, hrest⟩ := Option.bind_eq_some_iff.mp hruns
  obtain ⟨⟨r₂, s₂⟩, hsecond, heq⟩ := Option.map_eq_some_iff.mp hrest
  obtain ⟨⟨rfl, hsink₁⟩, ⟨rfl, hsink₂⟩⟩ := by simpa only [Prod.mk.injEq] using heq
  have herror : Syntax.parse ")" = .error (.unexpectedInput "\x60)\x60") := by cbv
  have hrefused : Program.runIn 0 ")" opening.1 opening.2 =
      some (.error (.source (.unexpectedInput "\x60)\x60")), opening.2) := by
    simp only [Program.runIn, Program.start, herror]
  have htrim : ∀ line source : String, Text.trim line.toList = source.toList →
      Text.Trimmed line.toList source.toList :=
    fun line source h => h ▸ Text.trimmed_trim line.toList
  have hclosing : Text.Trimmed ")\n".toList ")".toList := htrim _ _ (by cbv)
  let xs : List Exchange :=
    [⟨"do(define(x, \"a\"), y)\n", "", some (.error (.evaluation (.undefinedVariable "y")))⟩,
      ⟨"x", "", some (.ok (.text "a"))⟩]
  let x : Exchange := ⟨")\n", "", some (.error (.source (.unexpectedInput "\x60)\x60")))⟩
  have hconv : Conversation opening.1 opening.2 (x :: xs) s₂ := by
    refine .cons (.run hclosing (by decide) hrefused rfl) ?_
    refine .cons (.run (htrim _ "do(define(x, \"a\"), y)" (by cbv)) (by decide) hfirst hsink₁) ?_
    refine .cons (.run (htrim _ "x" (by cbv)) (by decide) hsecond ?_) .nil
    rw [hsink₁, hsink₂]
    rfl
  have hmap : ((x :: xs).map Exchange.line).map String.toList =
      [")".toList ++ ['\n'], "do(define(x, \"a\"), y)".toList ++ ['\n'], "x".toList] := by
    cbv
  have hlines : Text.Lines ")\ndo(define(x, \"a\"), y)\nx".toList
      (((x :: xs).map Exchange.line).map String.toList) := by
    have htext : ")\ndo(define(x, \"a\"), y)\nx".toList =
        ")".toList ++ '\n' :: ("do(define(x, \"a\"), y)".toList ++ '\n' :: "x".toList) := by
      cbv
    rw [htext, hmap]
    exact .cons (by simp) (.cons (by simp) (.last (by simp) (by simp)))
  have hwithout : WithoutInert (x :: xs) xs :=
    .leaveOut ⟨")", hclosing, .inr ⟨_, herror⟩⟩ (.keep (.keep .nil))
  obtain ⟨hreply, -, -, hdelete⟩ := (repl_transcript (fun _ => .missing) _).2 _ hlines
  have hwhole : transcript (x :: xs) = ⟨0, "> > > a\n> \n",
      "error: syntax error: unexpected input: \x60)\x60\nerror: undefined variable: y\n"⟩ := rfl
  have hrest : transcript xs = ⟨0, "> > a\n> \n", "error: undefined variable: y\n"⟩ := rfl
  have hjoin : String.join (xs.map Exchange.line) = "do(define(x, \"a\"), y)\nx" := by cbv
  obtain ⟨-, hkept⟩ := hdelete _ s₂ rfl hconv _ hwithout
  rw [hrest, hjoin] at hkept
  exact ⟨(hreply _).mpr ⟨_, s₂, rfl, hconv, hwhole.symm⟩, hkept⟩

end CommandLine

end Egg
