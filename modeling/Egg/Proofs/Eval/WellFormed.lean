import Egg.Proofs.Eval.Discipline

/-!
# Well-formed states

A state is well-formed if nothing in it refers to a scope that does not exist: every link leads to an
older scope, and every function, wherever it is held, was made in a scope of the heap. A moment of an
evaluation holds functions in three more places, which are the value that has just been found, the
frames that wait, and the scopes in which they will go on.

Scopes are never removed, so a reference that is good once stays good, and that only good references
are come upon is a discipline. With what a step does to the heap it follows that each step of an
evaluation keeps all references good (`step_wellFormed`), and so does every number of steps
(`run_wellFormed`).
-/

namespace Egg

/-! ## References to scopes -/

/-- Every function inside a value was made in one of the first `n` scopes. -/
inductive Value.Within (n : Nat) : Value → Prop where
  | number {m : Number} : Within n (.number m)
  | text {t : String} : Within n (.text t)
  | bool {b : Bool} : Within n (.bool b)
  | native {b : Builtin} : Within n (.native b)
  | array {tag : Tag} {items : List Value} (h : ∀ v ∈ items, Within n v) :
      Within n (.array tag items)
  | function {tag : Tag} {c : Closure} (h : c.scope < n) : Within n (.function tag c)

theorem Value.Within.mono {m n : Nat} (hmn : m ≤ n) {v : Value} (hv : v.Within m) : v.Within n := by
  induction hv with
  | number => exact .number
  | text => exact .text
  | bool => exact .bool
  | native => exact .native
  | array _ ih => exact .array ih
  | function h => exact .function (Nat.lt_of_lt_of_le h hmn)

/-- All references inside a heap are good. -/
structure Heap.WellFormed (h : Heap) : Prop where
  /-- Links lead to older scopes. -/
  parentsOlder : h.ParentsOlder
  /-- Functions were made in scopes of the heap. -/
  values : ∀ id scope name v, h.get? id = some scope → scope.bindings.find? name = some v →
    v.Within h.size

theorem Heap.wellFormed_empty : Heap.empty.WellFormed :=
  ⟨fun _ _ _ hs => by simp [Heap.get?, Heap.empty] at hs,
    fun _ _ _ _ hs => by simp [Heap.get?, Heap.empty] at hs⟩

namespace Heap.ParentsOlder

variable {h : Heap}

theorem define (ho : h.ParentsOlder) (id : ScopeId) (name : Name) (v : Value) :
    (h.define id name v).ParentsOlder := by
  intro j scope parent hs hp
  obtain ⟨old, hold, hparent, -⟩ := exists_of_get?_define hs
  exact ho j old parent hold (hparent.symm.trans hp)

theorem push (ho : h.ParentsOlder) (bindings : Bindings) {parent : Option ScopeId}
    (hp : ∀ p, parent = some p → p < h.size) : (h.push bindings parent).ParentsOlder := by
  intro j scope p hs hpar
  rw [get?_push] at hs
  split at hs
  · next hj =>
    cases hs
    exact hj ▸ hp p hpar
  · exact ho j scope p hs hpar

end Heap.ParentsOlder

namespace Heap.WellFormed

variable {h : Heap}

theorem within_of_binds (hw : h.WellFormed) {v : Value} (hb : h.Binds v) : v.Within h.size := by
  obtain ⟨id, scope, name, hs, hv⟩ := hb
  exact hw.values id scope name v hs hv

theorem define (hw : h.WellFormed) (id : ScopeId) (name : Name) {v : Value}
    (hv : v.Within h.size) : (h.define id name v).WellFormed := by
  refine ⟨hw.parentsOlder.define id name v, fun j scope m w hs hm => ?_⟩
  rw [size_define]
  rcases Binds.of_define ⟨j, scope, m, hs, hm⟩ with rfl | hb
  · exact hv
  · exact hw.within_of_binds hb

theorem push (hw : h.WellFormed) {bindings : Bindings} {parent : Option ScopeId}
    (hb : ∀ name v, bindings.find? name = some v → v.Within h.size)
    (hp : ∀ p, parent = some p → p < h.size) : (h.push bindings parent).WellFormed := by
  refine ⟨hw.parentsOlder.push bindings hp, fun j scope m w hs hm => ?_⟩
  rw [size_push]
  rcases Binds.of_push ⟨j, scope, m, hs, hm⟩ with ⟨name, hw'⟩ | hw'
  · exact (hb name w hw').mono (Nat.le_succ _)
  · exact (hw.within_of_binds hw').mono (Nat.le_succ _)

end Heap.WellFormed

/-! ## Where programs begin -/

/-- A value without parts. -/
def Value.IsPlain : Value → Prop
  | .number _ | .text _ | .bool _ | .native _ => True
  | .array _ _ | .function _ _ => False

theorem Value.IsPlain.within {v : Value} (hv : v.IsPlain) (n : Nat) : v.Within n := by
  cases v with
  | number => exact .number
  | text => exact .text
  | bool => exact .bool
  | native => exact .native
  | array | function => cases hv

/-- What every program finds has no parts. -/
theorem Bindings.isPlain_global {name : Name} {v : Value} (h : global.find? name = some v) :
    v.IsPlain := by
  have hmem := mem_of_find?_ofList h
  simp only [List.mem_cons, Prod.mk.injEq, List.mem_map] at hmem
  rcases hmem with ⟨-, rfl⟩ | ⟨-, rfl⟩ | ⟨b, -, -, rfl⟩ <;> trivial

namespace State

theorem wellFormed_pushGlobal {s : State} (hs : s.heap.WellFormed) :
    s.pushGlobal.2.heap.WellFormed :=
  hs.push (fun _ _ hv => (Bindings.isPlain_global hv).within _) (fun _ hp => by cases hp)

theorem wellFormed_pushChild {s : State} (hs : s.heap.WellFormed) {parent : ScopeId}
    (hp : parent < s.heap.size) : (s.pushChild parent).2.heap.WellFormed :=
  hs.push (fun _ _ hv => by cases hv) (fun _ h => by cases h; exact hp)

theorem wellFormed_pushProgram {s : State} (hs : s.heap.WellFormed) :
    s.pushProgram.2.heap.WellFormed :=
  wellFormed_pushChild (wellFormed_pushGlobal hs) (Nat.lt_of_lt_of_eq (Nat.lt_succ_self _)
    (s.heap.size_push .global none).symm)

theorem pushProgram_lt (s : State) : s.pushProgram.1 < s.pushProgram.2.heap.size :=
  Nat.lt_of_lt_of_eq (Nat.lt_succ_self _) (s.pushGlobal.2.heap.size_push .empty _).symm

end State

/-! ## Moments of an evaluation -/

/-- The references of a task are good in a heap of `n` scopes. -/
def Control.Within (n : Nat) : Control → Prop
  | .evaluate _ scope => scope < n
  | .yield v => v.Within n

/-- The references of a frame are good in a heap of `n` scopes. -/
def Frame.Within (n : Nat) : Frame → Prop
  | .branch _ _ scope | .loopTest _ _ scope | .loopBody _ _ scope | .sequence _ scope
  | .define _ scope | .assign _ scope | .operator _ scope => scope < n
  | .argument callee done _ scope =>
    callee.Within n ∧ (∀ v ∈ done, v.Within n) ∧ scope < n

/-- All references at a moment of an evaluation are good. -/
structure Config.WellFormed (c : Config) : Prop where
  /-- Those in the heap. -/
  heap : c.state.heap.WellFormed
  /-- Those in what is to be done next. -/
  control : c.control.Within c.state.heap.size
  /-- Those in the frames. -/
  stack : ∀ f ∈ c.stack, f.Within c.state.heap.size

/-- All references are good, whether the evaluation goes on or has ended. -/
def Progress.WellFormed : Progress → Prop
  | .running c => c.WellFormed
  | .finished result s => s.heap.WellFormed ∧ ∀ v, result = .ok v → v.Within s.heap.size

theorem Machine.evaluate_wellFormed {s : State} {stack : List Frame} (hs : s.heap.WellFormed)
    (hst : ∀ f ∈ stack, f.Within s.heap.size) (e : Expr) {scope : ScopeId}
    (hscope : scope < s.heap.size) : (evaluate e scope stack s).WellFormed :=
  Config.WellFormed.mk hs hscope hst

/-! ## The discipline of references -/

/-- Only scopes that exist are evaluated in, and only values whose references are good are come
upon. -/
def Discipline.references : Discipline where
  base := 0
  place s id := id < s.heap.size
  allows s _ id := id < s.heap.size
  value s v := v.Within s.heap.size
  place_mono hs h := Nat.lt_of_lt_of_le h hs.1
  allows_mono hs h := Nat.lt_of_lt_of_le h hs.1
  value_mono hs h := h.mono hs.1
  place_of_allows h := h
  number := .number
  bool := .bool
  text _ := .text
  array h := .array h
  item h hv := by
    cases h with
    | array h => exact h _ hv
  function h := .function h
  call _ h := ⟨h, fun _ _ => h⟩
  form h _ _ := h
  body _ _ _ h := h

theorem Heap.wellFormed_iff_obeys {s : State} :
    s.heap.WellFormed ↔ s.heap.ParentsOlder ∧ s.Obeys .references := by
  constructor
  · intro hw
    exact ⟨hw.parentsOlder, Nat.zero_le _, fun _ hv => hw.within_of_binds hv⟩
  · rintro ⟨ho, hs⟩
    exact ⟨ho, fun id scope name v hscope hv => hs.binds v ⟨id, scope, name, hscope, hv⟩⟩

theorem Control.within_iff_obeys {s : State} {control : Control} :
    control.Within s.heap.size ↔ control.Obeys .references s := by
  cases control <;> exact Iff.rfl

theorem Frame.within_iff_obeys {s : State} {f : Frame} :
    f.Within s.heap.size ↔ f.Obeys .references s := by
  -- the rule does not look at expressions, so all that a frame asks for is its scope
  cases f with
  | branch | loopTest | loopBody => exact ⟨fun h => ⟨h, h⟩, fun h => h.1⟩
  | sequence | operator => exact ⟨fun h => ⟨h, fun _ _ => h⟩, fun h => h.1⟩
  | define | assign => exact ⟨fun h => ⟨.word "", h⟩, fun ⟨_, h⟩ => h⟩
  | argument =>
    exact ⟨fun ⟨hc, hd, h⟩ => ⟨hc, hd, h, fun _ _ => h⟩, fun ⟨hc, hd, h⟩ => ⟨hc, hd, h.1⟩⟩

theorem Config.wellFormed_iff_obeys {c : Config} :
    c.WellFormed ↔ c.state.heap.ParentsOlder ∧ c.Obeys .references := by
  constructor
  · rintro ⟨hs, hc, hst⟩
    obtain ⟨ho, hs⟩ := Heap.wellFormed_iff_obeys.mp hs
    exact ⟨ho, hs, Control.within_iff_obeys.mp hc, fun f hf => Frame.within_iff_obeys.mp (hst f hf)⟩
  · rintro ⟨ho, hs, hc, hst⟩
    exact ⟨Heap.wellFormed_iff_obeys.mpr ⟨ho, hs⟩, Control.within_iff_obeys.mpr hc,
      fun f hf => Frame.within_iff_obeys.mpr (hst f hf)⟩

theorem Progress.wellFormed_iff_obeys {p : Progress} :
    p.WellFormed ↔ p.state.heap.ParentsOlder ∧ p.Obeys .references := by
  cases p with
  | running c => exact Config.wellFormed_iff_obeys
  | finished result s =>
    constructor
    · rintro ⟨hs, hv⟩
      obtain ⟨ho, hs⟩ := Heap.wellFormed_iff_obeys.mp hs
      exact ⟨ho, hs, hv⟩
    · rintro ⟨ho, hs, hv⟩
      exact ⟨Heap.wellFormed_iff_obeys.mpr ⟨ho, hs⟩, hv⟩

/-! ## Steps -/

/-- A new scope stands inside of the scope where the called function was made, which is there. -/
theorem Config.Changes.parentsOlder {c : Config} {h : Heap} (hch : c.Changes h)
    (hc : c.WellFormed) : h.ParentsOlder := by
  have ho := hc.heap.parentsOlder
  cases hch with
  | nothing => exact ho
  | callEmpty hn =>
    cases hc.control with
    | function hscope => exact ho.push _ fun p hp => by cases hp; exact hscope
  | call hn =>
    cases (hc.stack _ List.mem_cons_self).1 with
    | function hscope => exact ho.push _ fun p hp => by cases hp; exact hscope
  | define | assign => exact ho.define _ _ _

namespace Machine

/-- A step keeps all references good. -/
theorem step_wellFormed {c : Config} (hc : c.WellFormed) : (step c).WellFormed := by
  have ho := (step_changes c).parentsOlder hc
  have hobeys := (Config.wellFormed_iff_obeys.mp hc).2
  exact Progress.wellFormed_iff_obeys.mpr ⟨ho, step_obeys hobeys⟩

/-- Any number of steps keeps all references good. -/
theorem run_wellFormed (n : Nat) {c : Config} (hc : c.WellFormed) : (run n c).WellFormed :=
  run_invariant (P := Progress.WellFormed) (fun _ h => step_wellFormed h) n hc

/-- So does a call that nothing waits for. -/
theorem apply_wellFormed {s : State} (hs : s.heap.WellFormed) {callee : Value}
    (hc : callee.Within s.heap.size) {args : List Value} (hargs : ∀ v ∈ args, v.Within s.heap.size) :
    (apply callee args [] s).WellFormed := by
  obtain ⟨ho, hobeys⟩ := Heap.wellFormed_iff_obeys.mp hs
  have hnext : (apply callee args [] s).Obeys .references := apply_obeys hobeys (by simp) hc hargs
  refine Progress.wellFormed_iff_obeys.mpr ⟨?_, hnext⟩
  rcases heap_apply callee args [] s with heq | ⟨tag, f, rfl, -, heq⟩
  · rw [heq]
    exact ho
  · rw [heq]
    cases hc with
    | function hscope => exact ho.push _ fun p hp => by cases hp; exact hscope

end Machine

end Egg
