/-!
# Output

What becomes of the lines that a program prints: they are kept in order, or dropped.
-/

namespace Egg

/-- The receiver of printed lines. -/
inductive Sink where
  /-- Keeps what is printed, behind what it holds already. -/
  | buffer (held : String)
  /-- Drops what is printed. -/
  | silent

namespace Sink

/-- Receives a line. -/
def printLine (sink : Sink) (line : String) : Sink :=
  match sink with
  | buffer held => buffer (held ++ line ++ "\n")
  | silent => silent

/-- The text that is held. -/
def held : Sink → String
  | buffer held => held
  | silent => ""

/-- Gives up what is held. -/
def clear : Sink → Sink
  | buffer _ => buffer ""
  | silent => silent

end Sink

end Egg
