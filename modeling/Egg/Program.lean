import Egg.Eval.Machine
import Egg.Syntax.Parser

/-!
# Running programs

A program is a source text. Running it means parsing it and evaluating its expression in a scope;
what it defines there stays. A run is observed for a given number of steps, so that a program that
does not end is no obstacle to giving every run a meaning: either it has finished by then, or not
yet.
-/

namespace Egg

/-- Why a program fails. -/
inductive RunError where
  /-- The source text is not a program. -/
  | source (e : Syntax.ParseError)
  /-- The evaluation fails. -/
  | evaluation (e : EvalError)
deriving DecidableEq

namespace RunError

/-- The kind of an error. -/
def kind : RunError → ErrorKind
  | source _ => .shape
  | evaluation e => e.kind

/-- The wording of an error. -/
def message : RunError → String
  | source e => "syntax error: " ++ e.message
  | evaluation e => e.message

/-- The name of the reason. -/
def label : RunError → String
  | source e => e.label
  | evaluation e => e.label

end RunError

/-- What a run has come to. -/
abbrev Outcome := Except RunError Value × State

/-- The outcome of an evaluation that has finished. -/
def Progress.outcome? : Progress → Option Outcome
  | running _ => none
  | finished result s => some (result.mapError .evaluation, s)

namespace Program

/-- The outcome of evaluating an expression in a scope, if `steps` steps suffice. -/
def evaluate (steps : Nat) (e : Expr) (scope : ScopeId) (s : State) : Option Outcome :=
  (Machine.run steps ⟨.evaluate e scope, [], s⟩).outcome?

/-- The outcome of applying a value to arguments, if `steps` steps suffice. -/
def apply (steps : Nat) (callee : Value) (args : List Value) (s : State) : Option Outcome :=
  match Machine.apply callee args [] s with
  | .running c => (Machine.run steps c).outcome?
  | done => done.outcome?

/-- The first moment of running a source text in a scope, or the reason why there is none. -/
def start (source : String) (scope : ScopeId) (s : State) : Except RunError Config :=
  match Syntax.parse source with
  | .ok e => .ok ⟨.evaluate e scope, [], s⟩
  | .error e => .error (.source e)

/-- The outcome of running a source text in a scope, if `steps` steps suffice. -/
def runIn (steps : Nat) (source : String) (scope : ScopeId) (s : State) : Option Outcome :=
  match start source scope s with
  | .ok c => (Machine.run steps c).outcome?
  | .error e => some (.error e, s)

/-- The outcome of running a source text in a scope of its own, if `steps` steps suffice. -/
def runSource (steps : Nat) (source : String) (s : State) : Option Outcome :=
  let (scope, s) := s.pushProgram
  runIn steps source scope s

end Program

end Egg
