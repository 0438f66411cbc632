import Egg.CommandLine.Command
import Egg.Expr.Printer
import Egg.Program
import Egg.Text.Lines

/-!
# Replies

What a command leaves behind: the two output streams and the exit status, which is `1` if the
command could not do its work. Each error is one line on the error stream.
-/

namespace Egg.CommandLine

/-- What a command writes, and its exit status. -/
structure Reply where
  /-- The exit status. -/
  status : Nat := 0
  /-- The standard output. -/
  out : String := ""
  /-- The standard error output. -/
  err : String := ""
deriving DecidableEq

/-- The line that reports an error. -/
def errorLine (message : String) : String := "error: " ++ message ++ "\n"

/-- The reply of a command that fails. -/
def Reply.failure (message : String) : Reply := { status := 1, err := errorLine message }

/-! ## Files -/

/-- What reading a file leads to. -/
inductive FileRead where
  /-- The bytes of the file. -/
  | contents (bytes : ByteArray)
  /-- There is no such file. -/
  | missing
  /-- The file may not be read. -/
  | denied
  /-- Something else is wrong. -/
  | failed (reason : String)

/-- The text of a file, or what is wrong with it. -/
def FileRead.text (path : String) : FileRead → Except String String
  | contents bytes =>
    match String.fromUTF8? bytes with
    | some text => .ok text
    | none => .error ("'" ++ path ++ "' contains invalid UTF-8 data")
  | missing => .error ("cannot find file '" ++ path ++ "'")
  | denied => .error ("permission denied reading '" ++ path ++ "'")
  | failed reason => .error ("error reading '" ++ path ++ "': " ++ reason)

/-- The program that a file's text holds: its lines, whatever their endings. -/
def programOf (text : String) : String := String.ofList (Text.withPlainLineEndings text.toList)

/-! ## Replies to commands -/

/-- The reply to the end of a run, given what has been printed. -/
def replyTo (showResult : Bool) : Outcome → Reply
  | (.ok v, s) =>
    { out := if showResult then s.sink.held ++ v.display ++ "\n" else s.sink.held }
  | (.error e, s) => { Reply.failure e.message with out := s.sink.held }

/-- The reply to running a program, if `steps` steps suffice. -/
def runReply (steps : Nat) (source : String) (showResult : Bool) : Option Reply :=
  (Program.runSource steps source (.initial (.buffer ""))).map (replyTo showResult)

/-- The reply to a request for a syntax tree. -/
def parseReply (text : String) (dump : Bool) : Reply :=
  match Syntax.parse text with
  | .error e => .failure (RunError.source e).message
  | .ok e => { out := (if dump then String.ofList e.toDump.pretty else e.display) ++ "\n" }

/-- The reply to a command that runs nothing, if it is one. -/
def Command.immediateReply? : Command → Option Reply
  | .help => some { out := usage }
  | .version => some { out := "egg " ++ CommandLine.version ++ "\n" }
  | .runNothing => some
      { status := 1
        err := errorLine "missing file path" ++ "Usage: egg run <file.egg> [--show-result]\n" }
  | .evalNothing => some { status := 1, err := "Usage: egg eval <source>\n" }
  | .parseNothing => some { status := 1, err := "Usage: egg parse <file.egg> [--debug]\n" }
  | .unknown word => some
      { status := 1, out := usage, err := "Unknown command: " ++ word ++ "\n\n" }
  | .run _ _ => none
  | .eval _ => none
  | .parse _ _ => none
  | .repl => none

end Egg.CommandLine
