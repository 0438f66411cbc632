import Egg.CommandLine.Repl

/-!
# Carrying out commands

The meaning of a command as a function: from the files that can be read and the standard input to
what is written and the exit status.
-/

namespace Egg.CommandLine

/-- The reply to a command, given the files it can read and its standard input, if `steps` steps
suffice for every program it runs. -/
def Command.reply (steps : Nat) (files : String → FileRead) (input : ByteArray) (c : Command) :
    Option Reply :=
  match c with
  | .run path showResult =>
    match (files path).text path with
    | .error message => some (.failure message)
    | .ok text => runReply steps (programOf text) showResult
  | .eval source => runReply steps source true
  | .parse path dump =>
    match (files path).text path with
    | .error message => some (.failure message)
    | .ok text => some (parseReply text dump)
  | .repl => replReply steps input
  | c => c.immediateReply?

end Egg.CommandLine
