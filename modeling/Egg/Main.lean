import Egg.CommandLine.Exec

/-!
# The command line program

Reads files and the standard input, and writes what the commands reply. Programs are run a number of
steps at a time, so that what they print appears while they run.
-/

namespace Egg.CommandLine

/-- How many steps are taken between two looks at the output. -/
def stride : Nat := 100000

/-- Writes out a reply and gives its exit status. -/
def write (r : Reply) : IO UInt32 := do
  let out ← IO.getStdout
  out.putStr r.out
  out.flush
  (← IO.getStderr).putStr r.err
  return UInt32.ofNat r.status

/-- Writes out what is held. -/
def release (s : State) : IO State := do
  if s.sink.held.isEmpty then return s
  let out ← IO.getStdout
  out.putStr s.sink.held
  out.flush
  return s.mapSink Sink.clear

/-- Carries an evaluation to its end. -/
partial def finish (c : Config) : IO Outcome := do
  match Machine.run stride c with
  | .finished result s => return (result.mapError .evaluation, s)
  | .running ⟨control, stack, s⟩ => finish ⟨control, stack, ← release s⟩

/-- Runs a source text in a scope to its end. -/
def runToEnd (source : String) (scope : ScopeId) (s : State) : IO Outcome := do
  match Program.start source scope s with
  | .error e => return (.error e, s)
  | .ok c => finish c

/-- Runs a program of its own and writes the reply. -/
def runProgram (source : String) (showResult : Bool) : IO UInt32 := do
  let (scope, s) := (State.initial (.buffer "")).pushProgram
  write (replyTo showResult (← runToEnd source scope s))

/-- Reads the bytes of a line with its line feed, behind those already read. No bytes at all mean
that the input has ended. -/
partial def readLine (input : IO.FS.Stream) (line : ByteArray) : IO ByteArray := do
  let byte ← input.read 1
  if byte.isEmpty || byte.toList == [10] then return line ++ byte
  readLine input (line ++ byte)

/-- Reads lines and runs them, until there are no more. -/
partial def repl (scope : ScopeId) (s : State) : IO UInt32 := do
  let out ← IO.getStdout
  out.putStr prompt
  out.flush
  match String.fromUTF8? (← readLine (← IO.getStdin) .empty) with
  | none => write { err := unreadable }
  | some "" => write { out := "\n" }
  | some line =>
    match lineProgram? line with
    | none => repl scope s
    | some source =>
      let o ← runToEnd source scope s
      let _ ← write (lineReply o)
      repl scope (o.2.mapSink Sink.clear)

/-- The reason that the system gives for a failure. -/
def systemReason : IO.Error → String
  | .inappropriateType _ code details => details ++ " (os error " ++ code.toNat.repr ++ ")"
  | .otherError code details => details ++ " (os error " ++ code.toNat.repr ++ ")"
  | e => toString e

/-- Reads a file. -/
def readFile (path : String) : IO FileRead := do
  try
    return .contents (← IO.FS.readBinFile path)
  catch
    | .noFileOrDirectory .. => return .missing
    | .permissionDenied .. => return .denied
    | e => return .failed (systemReason e)

/-- Carries out a command. -/
def carryOut (c : Command) : IO UInt32 := do
  match c with
  | .run path showResult =>
    match (← readFile path).text path with
    | .ok text => runProgram (programOf text) showResult
    | .error message => write (.failure message)
  | .eval source => runProgram source true
  | .parse path dump =>
    match (← readFile path).text path with
    | .ok text => write (parseReply text dump)
    | .error message => write (.failure message)
  | .repl =>
    let (scope, s) := (State.initial (.buffer "")).pushProgram
    repl scope s
  | c => write (c.immediateReply?.getD {})

end Egg.CommandLine

/-- Carries out the command that the arguments stand for. -/
def main (args : List String) : IO UInt32 :=
  Egg.CommandLine.carryOut (.ofArgs args)
