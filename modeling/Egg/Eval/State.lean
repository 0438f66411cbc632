import Egg.Output
import Egg.Scope.Heap

/-!
# The state of a running program

Everything that an evaluation can change: the scopes, what has been printed, and the marks already
given to arrays and functions.
-/

namespace Egg

/-- The state of a running program. -/
structure State where
  /-- The scopes. -/
  heap : Heap
  /-- The receiver of what is printed. -/
  sink : Sink
  /-- The next unused mark. All marks in use are below it. -/
  nextTag : Tag

namespace State

/-- The state before anything has been run. -/
def initial (sink : Sink) : State := ⟨.empty, sink, 0⟩

/-- A new array of the given items. -/
def newArray : State → List Value → Value × State
  | ⟨heap, sink, tag⟩, items => (.array tag items, ⟨heap, sink, tag + 1⟩)

/-- A new function. -/
def newFunction : State → Closure → Value × State
  | ⟨heap, sink, tag⟩, closure => (.function tag closure, ⟨heap, sink, tag + 1⟩)

/-- The state with its sink changed. -/
@[inline]
def mapSink : State → (Sink → Sink) → State
  | ⟨heap, sink, tag⟩, f => ⟨heap, f sink, tag⟩

/-- The state after a line is printed. -/
def printLine (s : State) (line : String) : State := s.mapSink (·.printLine line)

/-- The state after a name is bound in a scope itself. -/
def define : State → ScopeId → Name → Value → State
  | ⟨heap, sink, tag⟩, scope, name, value => ⟨heap.define scope name value, sink, tag⟩

/-- The state after the nearest binding of a name, as seen from a scope, is changed. -/
def assign? : State → ScopeId → Name → Value → Option State
  | ⟨heap, sink, tag⟩, scope, name, value =>
    (heap.assign? scope name value).map fun heap => ⟨heap, sink, tag⟩

/-- A new scope with the given bindings. -/
def push : State → Bindings → Option ScopeId → ScopeId × State
  | ⟨heap, sink, tag⟩, bindings, parent => (heap.size, ⟨heap.push bindings parent, sink, tag⟩)

/-- A new scope without a parent and without bindings. -/
def pushRoot (s : State) : ScopeId × State := s.push .empty none

/-- A new scope without bindings inside a given one. -/
def pushChild (s : State) (parent : ScopeId) : ScopeId × State := s.push .empty (some parent)

/-- A new outermost scope for programs. -/
def pushGlobal (s : State) : ScopeId × State := s.push .global none

/-- A new scope for a program, inside a new outermost scope. -/
def pushProgram (s : State) : ScopeId × State :=
  let (outermost, s) := s.pushGlobal
  s.pushChild outermost

end State

end Egg
