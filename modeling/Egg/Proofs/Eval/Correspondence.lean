import Egg.Proofs.Eval.Likeness
import Mathlib

/-!
# States that correspond to each other

Nothing in an evaluation depends on which place a scope has in the heap or which mark an array or a
function bears; all that counts is whether two places, or two marks, are the same. A *correspondence*
relates the places and the marks of two states one to one. It also tells which names matter, since
the bindings of a name that is not mentioned anywhere do not.

Values correspond if they differ in places and marks only, and states correspond if related scopes
hold corresponding values. Both are likenesses, under which functions differ in the places of their
scopes only (`Closure.Alike`). All operations on corresponding states lead to corresponding states
again. What is made later is accounted for beforehand: the places and the marks that are not in use
yet are related in the order in which they will be used, so a correspondence need not grow.
-/

namespace Egg

/-! ## Correspondences -/

/-- A one-to-one relation of places, and one of marks. -/
structure Renaming where
  scope : ScopeId → ScopeId → Prop
  mark : Tag → Tag → Prop
  scope_iff : ∀ {a b a' b'}, scope a b → scope a' b' → (a = a' ↔ b = b')
  mark_iff : ∀ {x y x' y'}, mark x y → mark x' y' → (x = x' ↔ y = y')

/-- A renaming, the names that matter, and what had been printed in both states at the beginning. -/
structure Correspondence extends Renaming where
  name : Name → Prop
  left : Sink
  right : Sink

/-- What a sink becomes when a text is printed. -/
def Sink.append : Sink → String → Sink
  | buffer held, text => buffer (held ++ text)
  | silent, _ => silent

@[simp]
theorem Sink.append_empty (sink : Sink) : sink.append "" = sink := by
  cases sink <;> simp [append]

theorem Sink.printLine_append (sink : Sink) (text line : String) :
    (sink.append text).printLine line = sink.append (text ++ line ++ "\n") := by
  cases sink <;> simp [append, printLine, String.append_assoc]

/-- A name occurs in an expression. The words for special forms are no names. -/
inductive Expr.Uses (name : Name) : Expr → Prop where
  | word : Uses name (.word name)
  | operator {f : Expr} {args : List Expr} (hf : f.IsOrdinary) (h : Uses name f) :
      Uses name (.apply f args)
  | argument {f a : Expr} {args : List Expr} (ha : a ∈ args) (h : Uses name a) :
      Uses name (.apply f args)

/-- All names of the expression matter. -/
def Correspondence.Covers (ρ : Correspondence) (e : Expr) : Prop := ∀ name, e.Uses name → ρ.name name

variable {ρ : Correspondence}

namespace Correspondence.Covers

theorem name {n : Name} (h : ρ.Covers (.word n)) : ρ.name n := h n .word

theorem operator {f : Expr} {args : List Expr} (h : ρ.Covers (.apply f args)) (hf : f.IsOrdinary) :
    ρ.Covers f :=
  fun n hn => h n (.operator hf hn)

theorem argument {f a : Expr} {args : List Expr} (h : ρ.Covers (.apply f args)) (ha : a ∈ args) :
    ρ.Covers a :=
  fun n hn => h n (.argument ha hn)

end Correspondence.Covers

/-! ## Values -/

/-- Functions that differ in the places of their scopes only, and that mention only names that
matter. -/
structure Closure.Alike (ρ : Correspondence) (c c' : Closure) : Prop where
  body : c.body = c'.body
  scope : ρ.scope c.scope c'.scope
  params : ∀ name ∈ c.params, ρ.name name
  covers : ρ.Covers c.body

/-- Values that differ in places and marks only. -/
abbrev Value.Alike (ρ : Correspondence) : Value → Value → Prop :=
  Value.Like ρ.mark (Closure.Alike ρ)

/-- Values that correspond cannot be told apart by native functions. -/
theorem Correspondence.resemblance (ρ : Correspondence) : Resemblance (Value.Alike ρ) :=
  Value.resemblance_like ρ.mark_iff

/-! ## States -/

/-- Scopes that bind the names that matter to corresponding values. -/
abbrev Scope.Alike (ρ : Correspondence) : Scope → Scope → Prop :=
  Scope.Like ρ.scope ρ.name (Value.Alike ρ)

structure State.Alike (ρ : Correspondence) (s t : State) : Prop where
  heap : s.heap.Like ρ.scope ρ.name (Value.Alike ρ) t.heap
  newMarks : ∀ k, ρ.mark (s.nextTag + k) (t.nextTag + k)
  /-- The same has been printed since the beginning. -/
  printed : ∃ text, s.sink = ρ.left.append text ∧ t.sink = ρ.right.append text

namespace State.Alike

variable {s t : State}

theorem define (hs : s.Alike ρ t) {a b : ScopeId} (h : ρ.scope a b) (name : Name) {v w : Value}
    (hvw : v.Alike ρ w) : (s.define a name v).Alike ρ (t.define b name w) :=
  ⟨hs.heap.define h name hvw, hs.newMarks, hs.printed⟩

theorem push (hs : s.Alike ρ t) {bindings bindings' : Bindings} {parent parent' : Option ScopeId}
    (hb : bindings.Like ρ.name (Value.Alike ρ) bindings') (hp : Option.Rel ρ.scope parent parent') :
    (s.push bindings parent).2.Alike ρ (t.push bindings' parent').2 :=
  ⟨hs.heap.push hb hp, hs.newMarks, hs.printed⟩

/-- The next mark is used up on both sides. -/
theorem useMark (hs : s.Alike ρ t) :
    State.Alike ρ ⟨s.heap, s.sink, s.nextTag + 1⟩ ⟨t.heap, t.sink, t.nextTag + 1⟩ where
  heap := hs.heap
  newMarks k := by
    rw [Nat.add_assoc, Nat.add_assoc]
    exact hs.newMarks (1 + k)
  printed := hs.printed

theorem printLine (hs : s.Alike ρ t) (line : String) :
    (s.printLine line).Alike ρ (t.printLine line) where
  heap := hs.heap
  newMarks := hs.newMarks
  printed := by
    obtain ⟨text, hleft, hright⟩ := hs.printed
    refine ⟨text ++ line ++ "\n", ?_, ?_⟩
    · exact (congrArg (Sink.printLine · line) hleft).trans (Sink.printLine_append _ _ _)
    · exact (congrArg (Sink.printLine · line) hright).trans (Sink.printLine_append _ _ _)

end State.Alike

/-- A native function does the same with corresponding arguments. -/
theorem Builtin.call_alike (b : Builtin) {args args' : List Value} {s t : State} (hs : s.Alike ρ t)
    (hargs : List.Forall₂ (Value.Alike ρ) args args') :
    Result.Resembles (Value.Alike ρ) (b.call args s).1 (b.call args' t).1 ∧
      (b.call args s).2.Alike ρ (b.call args' t).2 :=
  call_resembles ρ.resemblance (T := State.Alike ρ) hs hs.printLine
    (fun hitems => ⟨Value.like_array.mpr ⟨hs.newMarks 0, hitems⟩, hs.useMark⟩) hargs b

end Egg
