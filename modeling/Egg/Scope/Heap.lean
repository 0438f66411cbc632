import Egg.Dump
import Egg.Scope.Bindings
import Egg.Text.Quoted

/-!
# Scopes

A scope has bindings of its own and may lie inside another scope, its parent. Scopes are shared:
many functions may have been made in one scope, and what one of them assigns the others see. So
scopes live in a heap and are known by their place in it. They are never removed.

A name is looked up from the inside outwards. Parents are older than the scopes inside them, so the
walk comes to an end; a link that does not lead to an older scope is not followed.
-/

namespace Egg

/-- Bindings, and the scope around them. -/
structure Scope where
  /-- The bindings that the scope owns. -/
  bindings : Bindings
  /-- The scope around this one. -/
  parent : Option ScopeId

/-- All scopes, in the order in which they were made. -/
structure Heap where
  /-- The scopes. -/
  scopes : Array Scope

namespace Heap

/-- The heap without scopes. -/
def empty : Heap := ⟨#[]⟩

/-- The number of scopes. -/
def size (h : Heap) : Nat := h.scopes.size

/-- The scope at a place. -/
def get? (h : Heap) (id : ScopeId) : Option Scope := h.scopes[id]?

/-- The innermost scope that owns a name, starting at a given one. -/
def owner? (h : Heap) (id : ScopeId) (name : Name) : Option ScopeId :=
  match h.get? id with
  | none => none
  | some scope =>
    if scope.bindings.binds name then some id
    else match scope.parent with
      | none => none
      | some parent => if parent < id then h.owner? parent name else none
termination_by id

/-- The value of a name, as seen from a scope. -/
def lookup? (h : Heap) (id : ScopeId) (name : Name) : Option Value :=
  match h.owner? id name with
  | none => none
  | some owner => (h.get? owner).bind (·.bindings.find? name)

/-- The heap after a name is bound in a scope itself. -/
def define (h : Heap) (id : ScopeId) (name : Name) (value : Value) : Heap :=
  ⟨h.scopes.modify id fun scope => { scope with bindings := scope.bindings.insert name value }⟩

/-- The heap after the nearest binding of a name, as seen from a scope, is changed. -/
def assign? (h : Heap) (id : ScopeId) (name : Name) (value : Value) : Option Heap :=
  match h.owner? id name with
  | none => none
  | some owner => some (h.define owner name value)

/-- The heap with one more scope, at the place `h.size`. -/
def push (h : Heap) (bindings : Bindings) (parent : Option ScopeId) : Heap :=
  ⟨h.scopes.push ⟨bindings, parent⟩⟩

end Heap

/-- A scope as a document: the names it owns, and whether it lies in another one. -/
def Scope.toDump (s : Scope) : Dump :=
  .group (.curly "Environment")
    [.field "names" (.group .square (s.bindings.names.map fun n => .atom (Text.quoted n))),
     .field "has_parent" (.atom (if s.parent.isSome then "true".toList else "false".toList))]

end Egg
