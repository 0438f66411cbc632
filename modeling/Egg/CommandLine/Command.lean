/-!
# Commands

The command line names a command and gives it arguments. Every list of arguments stands for exactly
one command; what is wrong with the arguments is a command of its own.
-/

namespace Egg.CommandLine

/-- What the command line asks for. -/
inductive Command where
  /-- Show how to use the program. -/
  | help
  /-- Show the version. -/
  | version
  /-- Run the program in a file, and show its value if asked to. -/
  | run (path : String) (showResult : Bool)
  /-- Run the given source text and show its value. -/
  | eval (source : String)
  /-- Show the syntax tree of the program in a file, as source text or as a dump. -/
  | parse (path : String) (dump : Bool)
  /-- Read and run programs line by line. -/
  | repl
  /-- A file to run is missing. -/
  | runNothing
  /-- A source text to evaluate is missing. -/
  | evalNothing
  /-- A file to parse is missing. -/
  | parseNothing
  /-- The word is no command. -/
  | unknown (word : String)

/-- Whether an argument is an option rather than a path. -/
def isOption (arg : String) : Bool := arg.toList.head? == some '-'

/-- The first argument that is a path. -/
def path? (args : List String) : Option String := args.find? fun arg => !isOption arg

/-- The command that a list of arguments stands for. -/
def Command.ofArgs : List String → Command
  | [] => .help
  | word :: args =>
    if word = "run" then
      match path? args with
      | some path => .run path (args.contains "--show-result" || args.contains "-r")
      | none => .runNothing
    else if word = "eval" then
      match args with
      | source :: _ => .eval source
      | [] => .evalNothing
    else if word = "parse" then
      match path? args with
      | some path => .parse path (args.contains "--debug")
      | none => .parseNothing
    else if word = "repl" then .repl
    else if ["help", "--help", "-h"].contains word then .help
    else if ["version", "--version", "-V"].contains word then .version
    else .unknown word

/-- How to use the program, line by line. -/
def usageLines : List String :=
  ["Egg interpreter",
   "",
   "Usage: egg <command> [options]",
   "",
   "Commands:",
   "  run <file.egg>       Run an Egg program",
   "  eval <source>        Run source text and print its value",
   "  parse <file.egg>     Parse and print the syntax tree",
   "  repl                 Read and run programs line by line",
   "  help                 Show this help message",
   "  version              Show version information",
   "",
   "Run options:",
   "  --show-result, -r    Print the program's final value",
   "",
   "Parse options:",
   "  --debug              Print the full Debug tree",
   "",
   "Set RUST_LOG (e.g. RUST_LOG=egg_eval=debug) to enable tracing on stderr."]

/-- How to use the program. -/
def usage : String := String.join (usageLines.map (· ++ "\n"))

/-- The version of the language. -/
def version : String := "0.1.0"

end Egg.CommandLine
