import Egg.Program
import Egg.Proofs.Scope.Resolution

/-!
# What evaluation does to the scopes

Few steps touch the heap at all: a call makes a new scope, a definition and an assignment bind a name
in a scope that exists (`Machine.step_changes`). No step removes a scope, moves it into another one,
or takes a name away from it, so the heap that an evaluation leaves extends the one it began with,
whether it ends with a value or with an error.
-/

namespace Egg

/-! ## What the operations on states do to the heap -/

namespace State

@[simp]
theorem heap_newArray (s : State) (items : List Value) : (s.newArray items).2.heap = s.heap := rfl

@[simp]
theorem heap_newFunction (s : State) (c : Closure) : (s.newFunction c).2.heap = s.heap := rfl

@[simp]
theorem heap_printLine (s : State) (line : String) : (s.printLine line).heap = s.heap := rfl

@[simp]
theorem heap_define (s : State) (scope : ScopeId) (name : Name) (v : Value) :
    (s.define scope name v).heap = s.heap.define scope name v := rfl

@[simp]
theorem heap_push (s : State) (bindings : Bindings) (parent : Option ScopeId) :
    (s.push bindings parent).2.heap = s.heap.push bindings parent := rfl

@[simp]
theorem fst_push (s : State) (bindings : Bindings) (parent : Option ScopeId) :
    (s.push bindings parent).1 = s.heap.size := rfl

end State

theorem Builtin.heap_call (b : Builtin) (args : List Value) (s : State) :
    (b.call args s).2.heap = s.heap := by
  unfold call
  split <;> rfl

/-! ## Heaps that extend others -/

namespace Heap

theorem lt_of_get? {h : Heap} {id : ScopeId} {scope : Scope} (hs : h.get? id = some scope) :
    id < h.size := by
  by_contra hge
  rw [get?_eq_none_iff.mpr (Nat.le_of_not_lt hge)] at hs
  cases hs

theorem get?_push_of_lt {h : Heap} {id : ScopeId} (hid : id < h.size) (bindings : Bindings)
    (parent : Option ScopeId) : (h.push bindings parent).get? id = h.get? id := by
  rw [get?_push, if_neg (Nat.ne_of_lt hid)]

end Heap

/-- Every scope of `h` is still there in `h'`, inside the same scope as before, and owns at least the
names that it owned. -/
def Heap.Extends (h' h : Heap) : Prop :=
  ∀ id scope, h.get? id = some scope → ∃ scope', h'.get? id = some scope' ∧
    scope'.parent = scope.parent ∧
      ∀ name, scope.bindings.binds name = true → scope'.bindings.binds name = true

namespace Heap.Extends

theorem refl (h : Heap) : h.Extends h := by
  intro id scope hs
  exact ⟨scope, hs, rfl, fun _ hb => hb⟩

theorem trans {h₁ h₂ h₃ : Heap} (h₃₂ : h₃.Extends h₂) (h₂₁ : h₂.Extends h₁) : h₃.Extends h₁ := by
  intro id scope₁ hs₁
  obtain ⟨scope₂, hs₂, hp₂, hb₂⟩ := h₂₁ id scope₁ hs₁
  obtain ⟨scope₃, hs₃, hp₃, hb₃⟩ := h₃₂ id scope₂ hs₂
  exact ⟨scope₃, hs₃, hp₃.trans hp₂, fun name hb => hb₃ name (hb₂ name hb)⟩

theorem define (h : Heap) (id : ScopeId) (name : Name) (v : Value) :
    (h.define id name v).Extends h := by
  intro j scope hs
  rw [get?_define, hs]
  by_cases hid : id = j
  · refine ⟨{ scope with bindings := scope.bindings.insert name v }, by rw [if_pos hid]; rfl, rfl, ?_⟩
    intro m hm
    obtain ⟨w, hw⟩ := Bindings.binds_eq_true.mp hm
    rw [Bindings.binds_eq_true]
    by_cases hname : m = name
    · exact ⟨v, by rw [Bindings.find?_insert, if_pos hname]⟩
    · exact ⟨w, by rw [Bindings.find?_insert, if_neg hname, hw]⟩
  · exact ⟨scope, by rw [if_neg hid], rfl, fun _ hb => hb⟩

theorem push (h : Heap) (bindings : Bindings) (parent : Option ScopeId) :
    (h.push bindings parent).Extends h := by
  intro j scope hs
  exact ⟨scope, by rw [get?_push_of_lt (lt_of_get? hs), hs], rfl, fun _ hb => hb⟩

theorem size_le {h' h : Heap} (hext : h'.Extends h) : h.size ≤ h'.size := by
  by_contra hlt
  obtain ⟨scope, hs⟩ := exists_get?_of_lt (Nat.lt_of_not_le hlt)
  obtain ⟨scope', hs', -, -⟩ := hext h'.size scope hs
  exact Nat.lt_irrefl _ (lt_of_get? hs')

end Heap.Extends

/-! ## Steps -/

/-- The state that an evaluation has come to. -/
def Progress.state : Progress → State
  | .running c => c.state
  | .finished _ s => s

/-- The heaps that a moment of an evaluation can lead to in one step. -/
inductive Config.Changes : Config → Heap → Prop where
  | nothing {c : Config} : Changes c c.state.heap
  /-- A function without parameters is called. -/
  | callEmpty {tag : Tag} {f : Closure} {scope : ScopeId} {stack : List Frame} {s : State}
      (hn : f.params.length = 0) :
      Changes ⟨.yield (.function tag f), .operator [] scope :: stack, s⟩
        (s.heap.push (.ofList (f.params.zip [])) (some f.scope))
  /-- The last argument of a call is there. -/
  | call {tag : Tag} {f : Closure} {v : Value} {done : List Value} {scope : ScopeId}
      {stack : List Frame} {s : State} (hn : f.params.length = (v :: done).reverse.length) :
      Changes ⟨.yield v, .argument (.function tag f) done [] scope :: stack, s⟩
        (s.heap.push (.ofList (f.params.zip (v :: done).reverse)) (some f.scope))
  | define {v : Value} {name : Name} {scope : ScopeId} {stack : List Frame} {s : State} :
      Changes ⟨.yield v, .define name scope :: stack, s⟩ (s.heap.define scope name v)
  | assign {v : Value} {name : Name} {scope owner : ScopeId} {stack : List Frame} {s : State}
      (ho : s.heap.owner? scope name = some owner) :
      Changes ⟨.yield v, .assign name scope :: stack, s⟩ (s.heap.define owner name v)

namespace Machine

/-- Only the call of a function of the program makes a scope. -/
theorem heap_apply (callee : Value) (args : List Value) (stack : List Frame) (s : State) :
    (apply callee args stack s).state.heap = s.heap ∨
      ∃ tag f, callee = .function tag f ∧ f.params.length = args.length ∧
        (apply callee args stack s).state.heap =
          s.heap.push (.ofList (f.params.zip args)) (some f.scope) := by
  cases callee with
  | function tag f =>
    by_cases hn : f.params.length = args.length
    · exact .inr ⟨tag, f, rfl, hn, by simp only [apply, hn, if_true]; rfl⟩
    · exact .inl (by simp only [apply, hn, if_false]; rfl)
  | native b =>
    have hheap := b.heap_call args s
    left
    simp only [apply]
    cases hcall : b.call args s with
    | mk r s₁ =>
      rw [hcall] at hheap
      cases r with
      | ok v => exact hheap
      | error x => exact hheap
  | number | text | bool | array => exact .inl rfl

theorem heap_begin (form : Form) (scope : ScopeId) (stack : List Frame) (s : State) :
    (begin form scope stack s).state.heap = s.heap := by
  cases form with
  | sequence items => cases items <;> rfl
  | choice | loop | define | assign | function => rfl

/-- Nothing changes before a value has been found. -/
theorem heap_enter (e : Expr) (scope : ScopeId) (stack : List Frame) (s : State) :
    (enter e scope stack s).state.heap = s.heap := by
  cases e with
  | number | text => rfl
  | word name =>
    simp only [enter]
    cases s.heap.lookup? scope name <;> rfl
  | apply f args =>
    simp only [enter]
    split
    · split
      · exact heap_begin _ scope stack s
      · rfl
    · rfl

theorem resume_changes (v : Value) (frame : Frame) (stack : List Frame) (s : State) :
    Config.Changes ⟨.yield v, frame :: stack, s⟩ (resume v frame stack s).state.heap := by
  cases frame with
  | branch | loopBody => exact .nothing
  | loopTest condition body scope =>
    simp only [resume]
    split <;> exact .nothing
  | sequence rest scope => cases rest <;> exact .nothing
  | define name scope => exact .define
  | assign name scope =>
    simp only [resume]
    split
    · next ho => exact .assign ho
    · exact .nothing
  | operator args scope =>
    simp only [resume]
    split
    · cases args with
      | nil =>
        rcases heap_apply v [] stack s with heq | ⟨tag, f, rfl, hn, heq⟩
        · exact heq ▸ .nothing
        · exact heq ▸ .callEmpty hn
      | cons e rest => exact .nothing
    · exact .nothing
  | argument callee done rest scope =>
    cases rest with
    | nil =>
      rcases heap_apply callee (v :: done).reverse stack s with heq | ⟨tag, f, rfl, hn, heq⟩
      · exact heq ▸ .nothing
      · exact heq ▸ .call hn
    | cons e rest => exact .nothing

/-- What a step does to the heap. -/
theorem step_changes (c : Config) : c.Changes (step c).state.heap := by
  obtain ⟨control, stack, s⟩ := c
  cases control with
  | evaluate e scope =>
    have hheap : (step ⟨.evaluate e scope, stack, s⟩).state.heap = s.heap :=
      heap_enter e scope stack s
    exact hheap ▸ .nothing
  | yield v =>
    cases stack with
    | nil => exact .nothing
    | cons frame stack => exact resume_changes v frame stack s

end Machine

theorem Config.Changes.extends {c : Config} {h : Heap} (hc : c.Changes h) :
    h.Extends c.state.heap := by
  cases hc with
  | nothing => exact .refl _
  | callEmpty | call => exact .push _ _ _
  | define | assign => exact .define _ _ _ _

/-! ## Runs -/

namespace Machine

/-- What every step keeps, any number of steps keeps. -/
theorem run_invariant {P : Progress → Prop} (hstep : ∀ c, P (.running c) → P (step c)) (n : Nat)
    {c : Config} (hc : P (.running c)) : P (run n c) := by
  induction n generalizing c with
  | zero => exact hc
  | succ n ih =>
    have hnext := hstep c hc
    rw [run]
    cases hc' : step c with
    | running c' =>
      rw [hc'] at hnext
      exact ih hnext
    | finished r s =>
      rw [hc'] at hnext
      exact hnext

theorem run_extends (n : Nat) (c : Config) : (run n c).state.heap.Extends c.state.heap := by
  refine run_invariant (P := fun p => p.state.heap.Extends c.state.heap) (fun c' h => ?_) n (.refl _)
  exact (step_changes c').extends.trans h

theorem apply_extends (callee : Value) (args : List Value) (stack : List Frame) (s : State) :
    (apply callee args stack s).state.heap.Extends s.heap := by
  rcases heap_apply callee args stack s with heq | ⟨tag, f, -, -, heq⟩
  · exact heq ▸ .refl _
  · exact heq ▸ .push _ _ _

end Machine

theorem Progress.state_of_outcome? {p : Progress} {r : Except RunError Value} {s : State}
    (h : p.outcome? = some (r, s)) : p.state = s := by
  cases p with
  | running c => cases h
  | finished result s' =>
    cases h
    rfl

namespace Program

variable {steps : Nat} {s s' : State} {r : Except RunError Value}

theorem evaluate_extends {e : Expr} {scope : ScopeId}
    (h : evaluate steps e scope s = some (r, s')) : s'.heap.Extends s.heap := by
  rw [← Progress.state_of_outcome? h]
  exact Machine.run_extends steps ⟨.evaluate e scope, [], s⟩

theorem apply_extends {callee : Value} {args : List Value}
    (h : apply steps callee args s = some (r, s')) : s'.heap.Extends s.heap := by
  have hfirst := Machine.apply_extends callee args [] s
  unfold apply at h
  split at h
  · next c hc =>
    rw [hc] at hfirst
    rw [← Progress.state_of_outcome? h]
    exact (Machine.run_extends steps c).trans hfirst
  · rw [← Progress.state_of_outcome? h]
    exact hfirst

end Program

end Egg
