import Egg.CommandLine.Reply
import Egg.Text.Blank

/-!
# Programs line by line

Each line of the input is a whole program. All of them run in one scope, so later lines see what
earlier ones have defined, and an error ends only the line that it arises in. Blank lines are passed
over. A line that is not valid UTF-8 cannot be read, and ends the conversation.
-/

namespace Egg.CommandLine

/-- What is shown before a line is read. -/
def prompt : String := "> "

/-- The lines of the input with their line feeds, when the bytes `line`, in reverse, have been read
of the current one. -/
def inputLinesFrom (line : List UInt8) : List UInt8 → List (List UInt8)
  | [] => if line.isEmpty then [] else [line.reverse]
  | b :: rest =>
    if b = 10 then (b :: line).reverse :: inputLinesFrom [] rest
    else inputLinesFrom (b :: line) rest

/-- The lines of the input, where a line that is not valid UTF-8 is `none`. -/
def inputLines (input : ByteArray) : List (Option String) :=
  (inputLinesFrom [] input.toList).map fun line => String.fromUTF8? ⟨line.toArray⟩

/-- The program on a line, if the line is not blank. -/
def lineProgram? (line : String) : Option String :=
  let source := Text.trim line.toList
  if source.isEmpty then none else some (String.ofList source)

/-- What a line writes when its program has ended. The line is done with, so the exit status does
not depend on it. -/
def lineReply (o : Outcome) : Reply := { replyTo true o with status := 0 }

/-- The reply to one line and the state behind it, if `steps` steps suffice. What
the program printed is part of the reply and no longer held. -/
def turn (steps : Nat) (line : String) (scope : ScopeId) (s : State) : Option (Reply × State) :=
  match lineProgram? line with
  | none => some ({}, s)
  | some source =>
    (Program.runIn steps source scope s).map fun o => (lineReply o, o.2.mapSink Sink.clear)

/-- The report on a line that cannot be read. -/
def unreadable : String := errorLine "cannot read input: stream did not contain valid UTF-8"

/-- The replies to all lines, one after the other. -/
def converse (steps : Nat) (scope : ScopeId) : List (Option String) → State → Option Reply
  | [], _ => some { out := prompt ++ "\n" }
  | none :: _, _ => some { out := prompt, err := unreadable }
  | some line :: rest, s =>
    match turn steps line scope s with
    | none => none
    | some (reply, s) =>
      (converse steps scope rest s).map fun later =>
        { later with out := prompt ++ reply.out ++ later.out, err := reply.err ++ later.err }

/-- The reply to a whole input. -/
def replReply (steps : Nat) (input : ByteArray) : Option Reply :=
  let (scope, s) := (State.initial (.buffer "")).pushProgram
  converse steps scope (inputLines input) s

end Egg.CommandLine
