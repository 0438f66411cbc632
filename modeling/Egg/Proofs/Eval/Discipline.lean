import Egg.Proofs.Eval.Effects
import Egg.Proofs.Eval.Forms

/-!
# Rules that every evaluation keeps to

Many properties of whole runs are of one kind: only certain expressions are evaluated in certain
scopes, and only certain values are ever come upon. A *discipline* is such a rule. It must be closed
under what the language does: the parts of an expression may be evaluated where the expression may,
the items of an array are as good as the array, a function may be made where its definition may be
evaluated, and the body of a function may be evaluated in the new scope of a call.

Then the rule holds at every moment of an evaluation that keeps to it at the first one
(`Machine.run_obeys`). The cases of the machine are gone through once, here.
-/

namespace Egg

/-! ## Later states -/

namespace State

/-- Scopes and marks are never given up, so a later state has at least as many. -/
def Before (s s' : State) : Prop := s.heap.size ≤ s'.heap.size ∧ s.nextTag ≤ s'.nextTag

theorem before_newFunction (s : State) (c : Closure) : s.Before (s.newFunction c).2 :=
  ⟨Nat.le_refl _, Nat.le_succ _⟩

theorem before_printLine (s : State) (line : String) : s.Before (s.printLine line) :=
  ⟨Nat.le_refl _, Nat.le_refl _⟩

theorem before_define (s : State) (scope : ScopeId) (name : Name) (v : Value) :
    s.Before (s.define scope name v) :=
  ⟨by simp, Nat.le_refl _⟩

theorem before_push (s : State) (bindings : Bindings) (parent : Option ScopeId) :
    s.Before (s.push bindings parent).2 :=
  ⟨by simp, Nat.le_refl _⟩

end State

namespace Heap

/-- Some scope binds a name to the value. -/
def Binds (h : Heap) (v : Value) : Prop :=
  ∃ id scope name, h.get? id = some scope ∧ scope.bindings.find? name = some v

variable {h : Heap} {v w : Value}

theorem Binds.of_define {id : ScopeId} {name : Name} (hb : (h.define id name v).Binds w) :
    w = v ∨ h.Binds w := by
  obtain ⟨j, scope, m, hs, hm⟩ := hb
  obtain ⟨old, hold, -, hbound⟩ := exists_of_get?_define hs
  rcases hbound m with hsame | ⟨-, hnew⟩
  · exact .inr ⟨j, old, m, hold, hsame.symm.trans hm⟩
  · exact .inl (Option.some.inj (hm.symm.trans hnew))

theorem Binds.of_push {bindings : Bindings} {parent : Option ScopeId}
    (hb : (h.push bindings parent).Binds w) :
    (∃ name, bindings.find? name = some w) ∨ h.Binds w := by
  obtain ⟨j, scope, m, hs, hm⟩ := hb
  rw [get?_push] at hs
  split at hs
  · cases hs
    exact .inl ⟨m, hm⟩
  · exact .inr ⟨j, scope, m, hs, hm⟩

theorem binds_of_lookup? {id : ScopeId} {name : Name} (hl : h.lookup? id name = some v) :
    h.Binds v := by
  unfold lookup? at hl
  split at hl
  · cases hl
  · next owner _ =>
    obtain ⟨scope, hs, hv⟩ := Option.bind_eq_some_iff.mp hl
    exact ⟨owner, scope, name, hs, hv⟩

end Heap

/-! ## Disciplines -/

/-- The parts of a special form that are evaluated where the form stands. -/
def Form.parts : Form → List Expr
  | .choice condition yes no => [condition, yes, no]
  | .loop condition body => [condition, body]
  | .sequence items => items
  | .define _ value => [value]
  | .assign _ value => [value]
  | .function _ _ => []

/-- A rule about evaluations that is closed under what the language does. -/
structure Discipline where
  /-- There are at least so many scopes. -/
  base : Nat
  /-- The scope may be one where something is evaluated. -/
  place : State → ScopeId → Prop
  /-- The expression may be evaluated in the scope. -/
  allows : State → Expr → ScopeId → Prop
  /-- The value may be come upon. -/
  value : State → Value → Prop
  place_mono : ∀ {s s' id}, s.Before s' → place s id → place s' id
  allows_mono : ∀ {s s' e id}, s.Before s' → allows s e id → allows s' e id
  value_mono : ∀ {s s' v}, s.Before s' → value s v → value s' v
  place_of_allows : ∀ {s e id}, allows s e id → place s id
  number : ∀ {s n}, value s (.number n)
  bool : ∀ {s b}, value s (.bool b)
  text : ∀ {s t id}, allows s (.text t) id → value s (.text t)
  array : ∀ {s items}, (∀ v ∈ items, value s v) →
    value (s.newArray items).2 (s.newArray items).1
  item : ∀ {s tag items v}, value s (.array tag items) → v ∈ items → value s v
  function : ∀ {s params body id}, allows s (Form.function params body).toExpr id →
    value (s.newFunction ⟨params, body, id⟩).2 (s.newFunction ⟨params, body, id⟩).1
  /-- The operator of a call and the arguments are evaluated where the call stands. -/
  call : ∀ {s f args id}, f.IsOrdinary → allows s (.apply f args) id →
    allows s f id ∧ ∀ a ∈ args, allows s a id
  form : ∀ {s} {form : Form} {id}, allows s form.toExpr id → ∀ e ∈ form.parts, allows s e id
  /-- A body is evaluated in a scope that was not there when the function was called. -/
  body : ∀ {s s' tag c}, base ≤ s.heap.size → value s (.function tag c) → s.Before s' →
    s.heap.size < s'.heap.size → allows s' c.body s.heap.size

variable {d : Discipline}

/-- All of the expressions may be evaluated in the scope. -/
def Discipline.allowsAll (d : Discipline) (s : State) (es : List Expr) (id : ScopeId) : Prop :=
  d.place s id ∧ ∀ e ∈ es, d.allows s e id

/-- What a state must be like. -/
structure State.Obeys (d : Discipline) (s : State) : Prop where
  base : d.base ≤ s.heap.size
  binds : ∀ v, s.heap.Binds v → d.value s v

/-- What is to be done next is allowed. -/
def Control.Obeys (d : Discipline) (s : State) : Control → Prop
  | .evaluate e scope => d.allows s e scope
  | .yield v => d.value s v

/-- Whatever a frame will do with a value is allowed. -/
def Frame.Obeys (d : Discipline) (s : State) : Frame → Prop
  | .branch yes no scope => d.allows s yes scope ∧ d.allows s no scope
  | .loopTest condition body scope => d.allows s condition scope ∧ d.allows s body scope
  | .loopBody condition body scope => d.allows s condition scope ∧ d.allows s body scope
  | .sequence rest scope => d.allowsAll s rest scope
  | .define name scope => ∃ e, d.allows s (Form.define name e).toExpr scope
  | .assign name scope => ∃ e, d.allows s (Form.assign name e).toExpr scope
  | .operator args scope => d.allowsAll s args scope
  | .argument callee done rest scope =>
    d.value s callee ∧ (∀ v ∈ done, d.value s v) ∧ d.allowsAll s rest scope

structure Config.Obeys (d : Discipline) (c : Config) : Prop where
  state : c.state.Obeys d
  control : c.control.Obeys d c.state
  stack : ∀ f ∈ c.stack, f.Obeys d c.state

def Progress.Obeys (d : Discipline) : Progress → Prop
  | .running c => c.Obeys d
  | .finished result s => s.Obeys d ∧ ∀ v, result = .ok v → d.value s v

theorem Discipline.allowsAll.mono {s s' : State} {es : List Expr} {id : ScopeId} (hs : s.Before s')
    (h : d.allowsAll s es id) : d.allowsAll s' es id :=
  ⟨d.place_mono hs h.1, fun e he => d.allows_mono hs (h.2 e he)⟩

theorem Frame.Obeys.mono {s s' : State} (hs : s.Before s') {f : Frame} (h : f.Obeys d s) :
    f.Obeys d s' := by
  cases f with
  | branch | loopTest | loopBody => exact ⟨d.allows_mono hs h.1, d.allows_mono hs h.2⟩
  | sequence | operator => exact Discipline.allowsAll.mono hs h
  | define | assign =>
    obtain ⟨e, he⟩ := h
    exact ⟨e, d.allows_mono hs he⟩
  | argument callee done rest scope =>
    obtain ⟨hcallee, hdone, hrest⟩ := h
    exact ⟨d.value_mono hs hcallee, fun v hv => d.value_mono hs (hdone v hv), hrest.mono hs⟩

/-- A later state obeys if all that is newly bound does. -/
theorem State.Obeys.later {s s' : State} (h : s.Obeys d) (hs : s.Before s')
    (hnew : ∀ v, s'.heap.Binds v → d.value s' v ∨ s.heap.Binds v) : s'.Obeys d := by
  refine ⟨Nat.le_trans h.base hs.1, fun v hv => ?_⟩
  rcases hnew v hv with hv | hv
  · exact hv
  · exact d.value_mono hs (h.binds v hv)

/-! ## Native functions -/

namespace Builtin

theorem before_call (b : Builtin) (args : List Value) (s : State) : s.Before (b.call args s).2 := by
  unfold call
  split
  case h_9 => exact ⟨Nat.le_refl _, Nat.le_succ _⟩
  all_goals exact ⟨Nat.le_refl _, Nat.le_refl _⟩

theorem exists_of_onNumbers {b : Builtin} {f : Number → Number → Value} {x y v : Value}
    (h : b.onNumbers f x y = .ok v) : ∃ m n, v = f m n := by
  unfold onNumbers at h
  split at h
  · cases h
  · split at h
    · cases h
    · cases h
      exact ⟨_, _, rfl⟩

theorem exists_of_lengthOf {x v : Value} (h : lengthOf x = .ok v) : ∃ n, v = .number n := by
  cases x with
  | array tag items =>
    cases h
    exact ⟨_, rfl⟩
  | number | text | bool | function | native => cases h

/-- The value of `element` is an item of the array. -/
theorem exists_of_elementAt {x index v : Value} (h : elementAt x index = .ok v) :
    ∃ tag items, x = .array tag items ∧ ∃ i : Nat, items[i]? = some v := by
  cases x with
  | array tag items =>
    simp only [elementAt] at h
    split at h
    · cases h
    · split at h
      · next w hw =>
        cases h
        obtain ⟨i, -, hi⟩ := Option.bind_eq_some_iff.mp hw
        exact ⟨tag, items, rfl, i, hi⟩
      · cases h
  | number | text | bool | function | native => cases h

/-- A native function gives nothing that was not among its arguments or inside of them, except for
numbers, truth values and new arrays. -/
theorem value_call {b : Builtin} {args : List Value} {s s' : State} {v : Value}
    (hargs : ∀ x ∈ args, d.value s x) (h : b.call args s = (.ok v, s')) : d.value s' v := by
  unfold call at h
  split at h
  iterate 4
    obtain ⟨hv, rfl⟩ := Prod.mk.inj h
    obtain ⟨m, n, rfl⟩ := exists_of_onNumbers hv
    exact d.number
  iterate 2
    obtain ⟨hv, rfl⟩ := Prod.mk.inj h
    obtain ⟨m, n, rfl⟩ := exists_of_onNumbers hv
    exact d.bool
  · cases h
    exact d.bool
  · cases h
    exact d.value_mono (s.before_printLine _) (hargs v List.mem_cons_self)
  · cases h
    exact d.array hargs
  · obtain ⟨hv, rfl⟩ := Prod.mk.inj h
    obtain ⟨n, rfl⟩ := exists_of_lengthOf hv
    exact d.number
  · next x i =>
    obtain ⟨hv, rfl⟩ := Prod.mk.inj h
    obtain ⟨tag, items, rfl, i, hi⟩ := exists_of_elementAt hv
    exact d.item (hargs _ List.mem_cons_self) (List.mem_of_getElem? hi)
  · cases h

end Builtin

/-! ## Steps -/

namespace Machine

variable {s : State} {stack : List Frame}

theorem evaluate_obeys (hs : s.Obeys d) (hst : ∀ f ∈ stack, f.Obeys d s) {e : Expr} {scope : ScopeId}
    (he : d.allows s e scope) : (evaluate e scope stack s).Obeys d :=
  Config.Obeys.mk hs he hst

/-- An evaluation goes on with an expression, and one more frame waits for its value. -/
theorem evaluate_cons_obeys (hs : s.Obeys d) (hst : ∀ f ∈ stack, f.Obeys d s) {e : Expr}
    {scope : ScopeId} (he : d.allows s e scope) {frame : Frame} (hf : frame.Obeys d s) :
    (evaluate e scope (frame :: stack) s).Obeys d :=
  evaluate_obeys hs (List.forall_mem_cons.mpr ⟨hf, hst⟩) he

theorem yield_obeys (hs : s.Obeys d) (hst : ∀ f ∈ stack, f.Obeys d s) {v : Value}
    (hv : d.value s v) : (yield v stack s).Obeys d :=
  Config.Obeys.mk hs hv hst

theorem fail_obeys (hs : s.Obeys d) (x : EvalError) : (fail x s).Obeys d :=
  ⟨hs, fun _ h => by cases h⟩

/-- A name is bound to the value that has just been found. -/
theorem yield_define_obeys (hs : s.Obeys d) (hst : ∀ f ∈ stack, f.Obeys d s) {v : Value}
    (hv : d.value s v) (id : ScopeId) (name : Name) :
    (yield v stack (s.define id name v)).Obeys d := by
  have hlater := s.before_define id name v
  have hv' := d.value_mono hlater hv
  refine yield_obeys (hs.later hlater fun w hw => ?_) (fun f hf => (hst f hf).mono hlater) hv'
  rcases hw.of_define with rfl | hw
  · exact .inl hv'
  · exact .inr hw

theorem apply_obeys (hs : s.Obeys d) (hst : ∀ f ∈ stack, f.Obeys d s) {callee : Value}
    (hc : d.value s callee) {args : List Value} (hargs : ∀ v ∈ args, d.value s v) :
    (apply callee args stack s).Obeys d := by
  cases callee with
  | function tag c =>
    simp only [apply]
    split
    · have hlater := s.before_push (.ofList (c.params.zip args)) (some c.scope)
      have hbody : d.allows (s.push (.ofList (c.params.zip args)) (some c.scope)).2 c.body
          s.heap.size := d.body hs.base hc hlater (by simp)
      refine evaluate_obeys (hs.later hlater fun v hv => ?_) (fun f hf => (hst f hf).mono hlater) hbody
      rcases hv.of_push with ⟨name, hv⟩ | hv
      · have hmem := (List.of_mem_zip (Bindings.mem_of_find?_ofList hv)).2
        exact .inl (d.value_mono hlater (hargs v hmem))
      · exact .inr hv
    · exact fail_obeys hs _
  | native b =>
    have hheap := b.heap_call args s
    have hlater := b.before_call args s
    simp only [apply]
    cases hcall : b.call args s with
    | mk r s₁ =>
      rw [hcall] at hheap hlater
      have hs₁ : s₁.Obeys d := hs.later hlater fun v hv => .inr (hheap ▸ hv)
      have hst₁ : ∀ f ∈ stack, f.Obeys d s₁ := fun f hf => (hst f hf).mono hlater
      cases r with
      | ok v => exact yield_obeys hs₁ hst₁ (Builtin.value_call hargs hcall)
      | error x => exact fail_obeys hs₁ x
  | number | text | bool | array => exact fail_obeys hs _

theorem begin_obeys (hs : s.Obeys d) (hst : ∀ f ∈ stack, f.Obeys d s) {form : Form} {scope : ScopeId}
    (h : d.allows s form.toExpr scope) : (begin form scope stack s).Obeys d := by
  have hparts := d.form h
  cases form with
  | choice condition yes no =>
    exact evaluate_cons_obeys hs hst (hparts condition (by simp [Form.parts]))
      ⟨hparts yes (by simp [Form.parts]), hparts no (by simp [Form.parts])⟩
  | loop condition body =>
    have hcondition := hparts condition (by simp [Form.parts])
    exact evaluate_cons_obeys hs hst hcondition ⟨hcondition, hparts body (by simp [Form.parts])⟩
  | sequence items =>
    cases items with
    | nil => exact yield_obeys hs hst d.bool
    | cons e rest =>
      obtain ⟨he, hrest⟩ := List.forall_mem_cons.mp hparts
      exact evaluate_cons_obeys hs hst he ⟨d.place_of_allows h, hrest⟩
  | define name e => exact evaluate_cons_obeys hs hst (hparts e (by simp [Form.parts])) ⟨e, h⟩
  | assign name e => exact evaluate_cons_obeys hs hst (hparts e (by simp [Form.parts])) ⟨e, h⟩
  | function params body =>
    have hlater := s.before_newFunction ⟨params, body, scope⟩
    exact yield_obeys (hs.later hlater fun v hv => .inr hv) (fun f hf => (hst f hf).mono hlater)
      (d.function h)

theorem enter_obeys (hs : s.Obeys d) (hst : ∀ f ∈ stack, f.Obeys d s) {e : Expr} {scope : ScopeId}
    (he : d.allows s e scope) : (enter e scope stack s).Obeys d := by
  cases e with
  | number n => exact yield_obeys hs hst d.number
  | text t => exact yield_obeys hs hst (d.text he)
  | word name =>
    simp only [enter]
    split
    · next v hv => exact yield_obeys hs hst (hs.binds v (Heap.binds_of_lookup? hv))
    · exact fail_obeys hs _
  | apply f args =>
    simp only [enter]
    split
    · next form hform =>
      split
      · next shaped hshape =>
        obtain ⟨rfl, rfl⟩ := SpecialForm.shape_eq_ok_iff.mp hshape
        obtain rfl := SpecialForm.ofOperator?_eq_some.mp hform
        exact begin_obeys hs hst he
      · exact fail_obeys hs _
    · next hform =>
      obtain ⟨hf, hargs⟩ := d.call (SpecialForm.ofOperator?_eq_none.mp hform) he
      exact evaluate_cons_obeys hs hst hf ⟨d.place_of_allows he, hargs⟩

theorem resume_obeys (hs : s.Obeys d) (hst : ∀ f ∈ stack, f.Obeys d s) {v : Value}
    (hv : d.value s v) {frame : Frame} (hf : frame.Obeys d s) :
    (resume v frame stack s).Obeys d := by
  cases frame with
  | branch yes no scope =>
    simp only [resume]
    split
    · exact evaluate_obeys hs hst hf.1
    · exact evaluate_obeys hs hst hf.2
  | loopTest condition body scope =>
    simp only [resume]
    split
    · exact evaluate_cons_obeys hs hst hf.2 hf
    · exact yield_obeys hs hst d.bool
  | loopBody condition body scope => exact evaluate_cons_obeys hs hst hf.1 hf
  | sequence rest scope =>
    cases rest with
    | nil => exact yield_obeys hs hst hv
    | cons e rest =>
      obtain ⟨he, hrest⟩ := List.forall_mem_cons.mp hf.2
      exact evaluate_cons_obeys hs hst he ⟨hf.1, hrest⟩
  | define name scope => exact yield_define_obeys hs hst hv scope name
  | assign name scope =>
    simp only [resume]
    split
    · next owner _ => exact yield_define_obeys hs hst hv owner name
    · exact fail_obeys hs _
  | operator args scope =>
    simp only [resume]
    split
    · cases args with
      | nil => exact apply_obeys hs hst hv (by simp)
      | cons e rest =>
        obtain ⟨he, hrest⟩ := List.forall_mem_cons.mp hf.2
        exact evaluate_cons_obeys hs hst he ⟨hv, by simp, hf.1, hrest⟩
    · exact fail_obeys hs _
  | argument callee done rest scope =>
    obtain ⟨hcallee, hdone, hplace, hrest⟩ := hf
    have hdone' : ∀ w ∈ v :: done, d.value s w := List.forall_mem_cons.mpr ⟨hv, hdone⟩
    cases rest with
    | nil => exact apply_obeys hs hst hcallee fun w hw => hdone' w (List.mem_reverse.mp hw)
    | cons e rest =>
      obtain ⟨he, hrest⟩ := List.forall_mem_cons.mp hrest
      exact evaluate_cons_obeys hs hst he ⟨hcallee, hdone', hplace, hrest⟩

/-- A step keeps to every discipline. -/
theorem step_obeys {c : Config} (hc : c.Obeys d) : (step c).Obeys d := by
  obtain ⟨control, stack, s⟩ := c
  obtain ⟨hs, hcontrol, hst⟩ := hc
  cases control with
  | evaluate e scope => exact enter_obeys hs hst hcontrol
  | yield v =>
    cases stack with
    | nil => exact ⟨hs, fun w hw => by cases hw; exact hcontrol⟩
    | cons frame stack =>
      obtain ⟨hf, hst⟩ := List.forall_mem_cons.mp hst
      exact resume_obeys hs hst hcontrol hf

/-- Any number of steps keeps to every discipline. -/
theorem run_obeys (n : Nat) {c : Config} (hc : c.Obeys d) : (run n c).Obeys d :=
  run_invariant (P := Progress.Obeys d) (fun _ h => step_obeys h) n hc

/-- What no step of an obedient run takes from the heap is there after the whole run. -/
theorem run_keeps {P : Heap → Prop}
    (hstep : ∀ (c : Config) (h : Heap), c.Obeys d → c.Changes h → P c.state.heap → P h)
    (n : Nat) {c : Config} (hc : c.Obeys d) (hP : P c.state.heap) : P (run n c).state.heap := by
  have hboth : (run n c).Obeys d ∧ P (run n c).state.heap := by
    refine run_invariant (P := fun p => p.Obeys d ∧ P p.state.heap) (fun c' h => ?_) n ⟨hc, hP⟩
    exact ⟨step_obeys h.1, hstep c' _ h.1 (step_changes c') h.2⟩
  exact hboth.2

end Machine

end Egg
