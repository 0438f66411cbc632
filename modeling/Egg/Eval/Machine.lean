import Egg.Eval.Native

/-!
# Evaluation

An evaluation proceeds in small steps. At each moment there is an expression to evaluate in some
scope, or a value that has just been found, and a stack of frames that tell what is waiting for the
value. An error drops the whole stack. So the depth of an evaluation is limited by memory only, and
one that does not end is a sequence of steps without end.

The rules are these.

* A literal is its value, and a word is the value of its nearest binding.
* An application of one of the six special words is a special form, whatever the word is bound to.
  Its shape is checked before anything is evaluated.
* In any other application the operator is evaluated first and must be a function; then the
  arguments are evaluated from left to right; then the function is applied.
* A call evaluates the body of the function in a new scope inside the one where the function was
  made, with the parameters bound to the arguments.
-/

namespace Egg

/-- What is to be done next. -/
inductive Control where
  /-- Evaluate an expression in a scope. -/
  | evaluate (e : Expr) (scope : ScopeId)
  /-- Hand a value to the topmost frame. -/
  | yield (v : Value)

/-- What waits for a value. -/
inductive Frame where
  /-- A choice waits for its condition. -/
  | branch (yes no : Expr) (scope : ScopeId)
  /-- A loop waits for its condition. -/
  | loopTest (condition body : Expr) (scope : ScopeId)
  /-- A loop waits for its body, whose value it ignores. -/
  | loopBody (condition body : Expr) (scope : ScopeId)
  /-- A sequence waits for an item; `rest` comes behind it. -/
  | sequence (rest : List Expr) (scope : ScopeId)
  /-- A definition waits for its value. -/
  | define (name : Name) (scope : ScopeId)
  /-- An assignment waits for its value. -/
  | assign (name : Name) (scope : ScopeId)
  /-- A call waits for its operator. -/
  | operator (args : List Expr) (scope : ScopeId)
  /-- A call waits for an argument; `done` are those before it, the last one first, and `rest` those
  behind it. -/
  | argument (callee : Value) (done : List Value) (rest : List Expr) (scope : ScopeId)

/-- A moment of an evaluation. -/
structure Config where
  /-- What is to be done next. -/
  control : Control
  /-- What waits for the value, the innermost first. -/
  stack : List Frame
  /-- The state of the program. -/
  state : State

/-- What a step, or a number of steps, leads to. -/
inductive Progress where
  /-- The evaluation goes on. -/
  | running (c : Config)
  /-- The evaluation has ended, with a value or an error, in a state. -/
  | finished (result : Except EvalError Value) (s : State)

namespace Machine

/-- The evaluation goes on with an expression. -/
@[inline]
def evaluate (e : Expr) (scope : ScopeId) (stack : List Frame) (s : State) : Progress :=
  .running ⟨.evaluate e scope, stack, s⟩

/-- The evaluation goes on with a value. -/
@[inline]
def yield (v : Value) (stack : List Frame) (s : State) : Progress := .running ⟨.yield v, stack, s⟩

/-- The evaluation ends with an error. -/
@[inline]
def fail (e : EvalError) (s : State) : Progress := .finished (.error e) s

/-- Applies a function to evaluated arguments. -/
def apply (callee : Value) (args : List Value) (stack : List Frame) (s : State) : Progress :=
  match callee with
  | .function tag c =>
    if c.params.length = args.length then
      let (scope, s) := s.push (.ofList (c.params.zip args)) (some c.scope)
      evaluate c.body scope stack s
    else fail (.arityMismatch (Value.function tag c).describe c.params.length args.length) s
  | .native b =>
    match b.call args s with
    | (.ok v, s) => yield v stack s
    | (.error e, s) => fail e s
  | v => fail (.notCallable v.describe) s

/-- Begins a special form of the right shape. -/
def begin (form : Form) (scope : ScopeId) (stack : List Frame) (s : State) : Progress :=
  match form with
  | .choice condition yes no => evaluate condition scope (.branch yes no scope :: stack) s
  | .loop condition body => evaluate condition scope (.loopTest condition body scope :: stack) s
  | .sequence [] => yield (.bool false) stack s
  | .sequence (e :: rest) => evaluate e scope (.sequence rest scope :: stack) s
  | .define name e => evaluate e scope (.define name scope :: stack) s
  | .assign name e => evaluate e scope (.assign name scope :: stack) s
  | .function params body =>
    let (v, s) := s.newFunction ⟨params, body, scope⟩
    yield v stack s

/-- Begins the evaluation of an expression. -/
def enter (e : Expr) (scope : ScopeId) (stack : List Frame) (s : State) : Progress :=
  match e with
  | .number n => yield (.number n) stack s
  | .text t => yield (.text t) stack s
  | .word name =>
    match s.heap.lookup? scope name with
    | some v => yield v stack s
    | none => fail (.undefinedVariable name) s
  | .apply f args =>
    match SpecialForm.ofOperator? f with
    | some form =>
      match form.shape args with
      | .ok shaped => begin shaped scope stack s
      | .error misuse => fail (.badSpecialForm form misuse) s
    | none => evaluate f scope (.operator args scope :: stack) s

/-- Hands a value to the frame that waits for it. -/
def resume (v : Value) (frame : Frame) (stack : List Frame) (s : State) : Progress :=
  match frame with
  | .branch yes no scope => evaluate (if v.isTruthy then yes else no) scope stack s
  | .loopTest condition body scope =>
    if v.isTruthy then evaluate body scope (.loopBody condition body scope :: stack) s
    else yield (.bool false) stack s
  | .loopBody condition body scope =>
    evaluate condition scope (.loopTest condition body scope :: stack) s
  | .sequence [] _ => yield v stack s
  | .sequence (e :: rest) scope => evaluate e scope (.sequence rest scope :: stack) s
  | .define name scope => yield v stack (s.define scope name v)
  | .assign name scope =>
    match s.heap.owner? scope name with
    | some owner => yield v stack (s.define owner name v)
    | none => fail (.unknownVariable name) s
  | .operator args scope =>
    if v.isCallable then
      match args with
      | [] => apply v [] stack s
      | e :: rest => evaluate e scope (.argument v [] rest scope :: stack) s
    else fail (.notCallable v.describe) s
  | .argument callee done [] _ => apply callee (v :: done).reverse stack s
  | .argument callee done (e :: rest) scope =>
    evaluate e scope (.argument callee (v :: done) rest scope :: stack) s

/-- One step of an evaluation. -/
def step : Config → Progress
  | ⟨.evaluate e scope, stack, s⟩ => enter e scope stack s
  | ⟨.yield v, frame :: stack, s⟩ => resume v frame stack s
  | ⟨.yield v, [], s⟩ => .finished (.ok v) s

/-- At most `n` steps of an evaluation. -/
def run : (n : Nat) → Config → Progress
  | 0, c => .running c
  | n + 1, c =>
    match step c with
    | .running c => run n c
    | .finished result s => .finished result s

end Machine

end Egg
