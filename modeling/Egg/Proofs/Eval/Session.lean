import Egg.Proofs.Eval.WellFormed
import Mathlib

/-!
# Sessions

A program that uses the interpreter works on one state for as long as it likes. It makes scopes,
binds and assigns names in them, evaluates expressions and applies values, and it goes on after an
evaluation that fails. It has no names for scopes and functions but those that it was given, so a
session is a state together with all scopes and values that have been handed out so far.

However such a session goes, all references in its state are good
(`Session.Reachable.wellFormed`). Hence looking for a name always comes to an end.
-/

namespace Egg

theorem State.assign?_eq_some {s s' : State} {id : ScopeId} {name : Name} {v : Value} :
    s.assign? id name v = some s' ↔
      ∃ owner, s.heap.owner? id name = some owner ∧ s' = s.define owner name v := by
  obtain ⟨heap, sink, tag⟩ := s
  unfold State.assign? Heap.assign?
  cases ho : heap.owner? id name with
  | none => simp [ho]
  | some owner => simp [ho, State.define, eq_comm]

/-! ## Evaluations that end -/

theorem Progress.WellFormed.of_outcome? {p : Progress} (hp : p.WellFormed)
    {r : Except RunError Value} {s : State} (h : p.outcome? = some (r, s)) :
    s.heap.WellFormed ∧ ∀ v, r = .ok v → v.Within s.heap.size := by
  cases p with
  | running c => cases h
  | finished result s' =>
    cases h
    refine ⟨hp.1, fun v hv => hp.2 v ?_⟩
    cases result with
    | ok w =>
      cases hv
      rfl
    | error x => cases hv

namespace Program

variable {steps : Nat} {s s' : State} {r : Except RunError Value}

theorem wellFormed_of_evaluate (hs : s.heap.WellFormed) {e : Expr} {id : ScopeId}
    (hid : id < s.heap.size) (h : evaluate steps e id s = some (r, s')) :
    s'.heap.WellFormed ∧ ∀ v, r = .ok v → v.Within s'.heap.size := by
  have hfirst : Config.WellFormed ⟨.evaluate e id, [], s⟩ :=
    Machine.evaluate_wellFormed hs (by simp) e hid
  exact (Machine.run_wellFormed steps hfirst).of_outcome? h

theorem wellFormed_of_apply (hs : s.heap.WellFormed) {callee : Value} {args : List Value}
    (hc : callee.Within s.heap.size) (hargs : ∀ v ∈ args, v.Within s.heap.size)
    (h : apply steps callee args s = some (r, s')) :
    s'.heap.WellFormed ∧ ∀ v, r = .ok v → v.Within s'.heap.size := by
  have hfirst := Machine.apply_wellFormed hs hc hargs
  unfold apply at h
  split at h
  · next c hrunning =>
    rw [hrunning] at hfirst
    exact (Machine.run_wellFormed steps hfirst).of_outcome? h
  · exact hfirst.of_outcome? h

end Program

/-! ## What a session can do -/

/-- A state, and what has been handed out of it. -/
structure Session where
  state : State
  scopes : List ScopeId
  values : List Value

namespace Session

/-- Before anything has been done. -/
def start (sink : Sink) : Session := ⟨.initial sink, [], []⟩

def become (σ : Session) (s : State) : Session := { σ with state := s }

def keepScope (σ : Session) (id : ScopeId) : Session := { σ with scopes := id :: σ.scopes }

def keepValue (σ : Session) (v : Value) : Session := { σ with values := v :: σ.values }

/-- A run that fails hands out nothing. -/
def receive (σ : Session) : Except RunError Value → Session
  | .ok v => σ.keepValue v
  | .error _ => σ

/-- What can be done next, with what has been handed out. -/
inductive Step (σ : Session) : Session → Prop where
  | root : Step σ ((σ.become σ.state.pushRoot.2).keepScope σ.state.pushRoot.1)
  | global : Step σ ((σ.become σ.state.pushGlobal.2).keepScope σ.state.pushGlobal.1)
  | child {parent : ScopeId} (hp : parent ∈ σ.scopes) :
      Step σ ((σ.become (σ.state.pushChild parent).2).keepScope (σ.state.pushChild parent).1)
  | define {id : ScopeId} (name : Name) {v : Value} (hid : id ∈ σ.scopes) (hv : v ∈ σ.values) :
      Step σ (σ.become (σ.state.define id name v))
  | assign {id : ScopeId} {name : Name} {v : Value} {s : State} (hid : id ∈ σ.scopes)
      (hv : v ∈ σ.values) (hs : σ.state.assign? id name v = some s) : Step σ (σ.become s)
  | lookup {id : ScopeId} {name : Name} {v : Value} (hid : id ∈ σ.scopes)
      (hv : σ.state.heap.lookup? id name = some v) : Step σ (σ.keepValue v)
  | plain {v : Value} (hv : v.IsPlain) : Step σ (σ.keepValue v)
  | array {items : List Value} (hitems : ∀ v ∈ items, v ∈ σ.values) :
      Step σ ((σ.become (σ.state.newArray items).2).keepValue (σ.state.newArray items).1)
  | item {tag : Tag} {items : List Value} {v : Value} (ha : .array tag items ∈ σ.values)
      (hv : v ∈ items) : Step σ (σ.keepValue v)
  | function (params : List Name) (body : Expr) {id : ScopeId} (hid : id ∈ σ.scopes) :
      Step σ ((σ.become (σ.state.newFunction ⟨params, body, id⟩).2).keepValue
        (σ.state.newFunction ⟨params, body, id⟩).1)
  /-- The scope of a function can be asked for. -/
  | captured {tag : Tag} {c : Closure} (hf : .function tag c ∈ σ.values) :
      Step σ (σ.keepScope c.scope)
  | output (f : Sink → Sink) : Step σ (σ.become (σ.state.mapSink f))
  | evaluate {steps : Nat} {e : Expr} {id : ScopeId} {r : Except RunError Value} {s : State}
      (hid : id ∈ σ.scopes) (h : Program.evaluate steps e id σ.state = some (r, s)) :
      Step σ ((σ.become s).receive r)
  | apply {steps : Nat} {callee : Value} {args : List Value} {r : Except RunError Value}
      {s : State} (hc : callee ∈ σ.values) (hargs : ∀ v ∈ args, v ∈ σ.values)
      (h : Program.apply steps callee args σ.state = some (r, s)) :
      Step σ ((σ.become s).receive r)

/-- What a session can come to. -/
inductive Reachable : Session → Prop where
  | start (sink : Sink) : Reachable (start sink)
  | step {σ σ' : Session} (h : Reachable σ) (hstep : σ.Step σ') : Reachable σ'

/-- All references are good, those that have been handed out included. -/
structure WellFormed (σ : Session) : Prop where
  heap : σ.state.heap.WellFormed
  scopes : ∀ id ∈ σ.scopes, id < σ.state.heap.size
  values : ∀ v ∈ σ.values, v.Within σ.state.heap.size

/-! ## Steps -/

namespace WellFormed

variable {σ : Session}

/-- What has been handed out stays good in a later state. -/
theorem become (hσ : σ.WellFormed) {s : State} (hs : s.heap.WellFormed)
    (hext : s.heap.Extends σ.state.heap) : (σ.become s).WellFormed := by
  have hle := hext.size_le
  refine ⟨hs, fun id hid => ?_, fun v hv => ?_⟩
  · exact Nat.lt_of_lt_of_le (hσ.scopes id hid) hle
  · exact (hσ.values v hv).mono hle

theorem keepScope (hσ : σ.WellFormed) {id : ScopeId} (hid : id < σ.state.heap.size) :
    (σ.keepScope id).WellFormed :=
  ⟨hσ.heap, List.forall_mem_cons.mpr ⟨hid, hσ.scopes⟩, hσ.values⟩

theorem keepValue (hσ : σ.WellFormed) {v : Value} (hv : v.Within σ.state.heap.size) :
    (σ.keepValue v).WellFormed :=
  ⟨hσ.heap, hσ.scopes, List.forall_mem_cons.mpr ⟨hv, hσ.values⟩⟩

theorem receive (hσ : σ.WellFormed) {r : Except RunError Value}
    (hr : ∀ v, r = .ok v → v.Within σ.state.heap.size) : (σ.receive r).WellFormed := by
  cases r with
  | ok v => exact hσ.keepValue (hr v rfl)
  | error x => exact hσ

/-- A new scope is handed out. -/
theorem push (hσ : σ.WellFormed) {bindings : Bindings} {parent : Option ScopeId}
    (hb : ∀ name v, bindings.find? name = some v → v.Within σ.state.heap.size)
    (hp : ∀ p, parent = some p → p < σ.state.heap.size) :
    ((σ.become (σ.state.push bindings parent).2).keepScope
      (σ.state.push bindings parent).1).WellFormed := by
  have hs : (σ.state.push bindings parent).2.heap.WellFormed := hσ.heap.push hb hp
  refine (hσ.become hs (.push _ _ _)).keepScope ?_
  exact Nat.lt_of_lt_of_eq (Nat.lt_succ_self _) (σ.state.heap.size_push bindings parent).symm

theorem define (hσ : σ.WellFormed) (id : ScopeId) (name : Name) {v : Value} (hv : v ∈ σ.values) :
    (σ.become (σ.state.define id name v)).WellFormed :=
  hσ.become (hσ.heap.define id name (hσ.values v hv)) (.define _ _ _ _)

end WellFormed

/-- All references stay good, whatever is done next. -/
theorem Step.wellFormed {σ σ' : Session} (hstep : σ.Step σ') (hσ : σ.WellFormed) :
    σ'.WellFormed := by
  cases hstep with
  | root => exact hσ.push (fun _ _ hv => by cases hv) (fun _ hp => by cases hp)
  | global => exact hσ.push (fun _ _ hv => (Bindings.isPlain_global hv).within _) (fun _ hp => by cases hp)
  | child hp =>
    refine hσ.push (fun _ _ hv => by cases hv) (fun p hpar => ?_)
    cases hpar
    exact hσ.scopes _ hp
  | define name hid hv => exact hσ.define _ name hv
  | assign hid hv hs =>
    obtain ⟨owner, -, rfl⟩ := State.assign?_eq_some.mp hs
    exact hσ.define owner _ hv
  | lookup hid hv => exact hσ.keepValue (hσ.heap.within_of_binds (Heap.binds_of_lookup? hv))
  | plain hv => exact hσ.keepValue (hv.within _)
  | @array items hitems =>
    have hv : (σ.state.newArray items).1.Within σ.state.heap.size :=
      .array fun v hv => hσ.values v (hitems v hv)
    exact (hσ.become (s := (σ.state.newArray items).2) hσ.heap (.refl _)).keepValue hv
  | item ha hv =>
    cases hσ.values _ ha with
    | array hitems => exact hσ.keepValue (hitems _ hv)
  | @function params body id hid =>
    have hv : (σ.state.newFunction ⟨params, body, id⟩).1.Within σ.state.heap.size :=
      .function (hσ.scopes id hid)
    exact (hσ.become (s := (σ.state.newFunction _).2) hσ.heap (.refl _)).keepValue hv
  | captured hf =>
    cases hσ.values _ hf with
    | function hscope => exact hσ.keepScope hscope
  | output f => exact hσ.become hσ.heap (.refl _)
  | evaluate hid h =>
    obtain ⟨hs, hr⟩ := Program.wellFormed_of_evaluate hσ.heap (hσ.scopes _ hid) h
    exact (hσ.become hs (Program.evaluate_extends h)).receive hr
  | apply hc hargs h =>
    obtain ⟨hs, hr⟩ := Program.wellFormed_of_apply hσ.heap (hσ.values _ hc)
      (fun v hv => hσ.values v (hargs v hv)) h
    exact (hσ.become hs (Program.apply_extends h)).receive hr

theorem Reachable.wellFormed {σ : Session} (h : σ.Reachable) : σ.WellFormed := by
  induction h with
  | start sink => exact ⟨Heap.wellFormed_empty, by simp [Session.start], by simp [Session.start]⟩
  | step _ hstep ih => exact hstep.wellFormed ih

/-! ## What holds of every session -/

/-- In a session that has come about in any way, all references are good, and a name that is looked
for from any scope is found in a scope further out or is bound nowhere, so that a look-up and an
assignment end. This stays so at every moment of the next evaluation or application. When that has
ended, well or badly, each scope is still there, where it was, with at least the names it owned. -/
theorem references_good_and_scopes_endure {σ : Session} (h : σ.Reachable) :
    σ.WellFormed ∧
    (∀ id < σ.state.heap.size, ∀ name,
      (∃ owner v, σ.state.heap.Resolves name id owner v ∧ σ.state.heap.lookup? id name = some v ∧
        ∀ w, σ.state.assign? id name w = some (σ.state.define owner name w)) ∨
      (σ.state.heap.Unbound name id ∧ σ.state.heap.lookup? id name = none ∧
        ∀ w, σ.state.assign? id name w = none)) ∧
    (∀ n e, ∀ id ∈ σ.scopes, (Machine.run n ⟨.evaluate e id, [], σ.state⟩).WellFormed) ∧
    (∀ n, ∀ callee ∈ σ.values, ∀ args, (∀ v ∈ args, v ∈ σ.values) → ∀ c,
      Machine.apply callee args [] σ.state = .running c → (Machine.run n c).WellFormed) ∧
    (∀ steps e id r s, Program.evaluate steps e id σ.state = some (r, s) →
      s.heap.Extends σ.state.heap) ∧
    (∀ steps callee args r s, Program.apply steps callee args σ.state = some (r, s) →
      s.heap.Extends σ.state.heap) := by
  have hσ := h.wellFormed
  refine ⟨hσ, fun id hid name => ?_, fun n e id hid => ?_, fun n callee hcallee args hargs c hc => ?_,
    fun _ _ _ _ _ h => Program.evaluate_extends h, fun _ _ _ _ _ h => Program.apply_extends h⟩
  · have ho := hσ.heap.parentsOlder
    rcases Heap.resolves_or_unbound ho name hid with ⟨owner, v, hr⟩ | hu
    · refine .inl ⟨owner, v, hr, Heap.lookup?_of_resolves ho hr, fun w => ?_⟩
      exact State.assign?_eq_some.mpr ⟨owner, Heap.owner?_of_resolves ho hr, rfl⟩
    · refine .inr ⟨hu, Heap.lookup?_of_unbound hu, fun w => ?_⟩
      refine Option.eq_none_iff_forall_ne_some.mpr fun s hs => ?_
      obtain ⟨owner, howner, -⟩ := State.assign?_eq_some.mp hs
      rw [Heap.owner?_of_unbound hu] at howner
      cases howner
  · exact Machine.run_wellFormed n (Machine.evaluate_wellFormed hσ.heap (by simp) e (hσ.scopes id hid))
  · have hfirst := Machine.apply_wellFormed hσ.heap (hσ.values callee hcallee)
      fun v hv => hσ.values v (hargs v hv)
    rw [hc] at hfirst
    exact Machine.run_wellFormed n hfirst

/-- A session at work: in a scope inside of an outermost one, `define(f, fun(x, y))` is evaluated, and
then `f("a")` fails. -/
theorem references_good_before_failed_call :
    ∃ σ : Session, σ.Reachable ∧ σ.scopes = [1, 0] ∧
      σ.values = [.function 0 ⟨["x"], .word "y", 1⟩] ∧ σ.WellFormed ∧
      ∃ s, Program.evaluate 20 (.apply (.word "f") [.text "a"]) 1 σ.state =
          some (.error (.evaluation (.undefinedVariable "y")), s) ∧
        s.heap.Extends σ.state.heap := by
  have hrun : ((Program.evaluate 20
      (.apply (.word "define") [.word "f", .apply (.word "fun") [.word "x", .word "y"]])
      1 ((State.initial .silent).pushGlobal.2.pushChild 0).2).bind fun defined =>
        (Program.evaluate 20 (.apply (.word "f") [.text "a"]) 1 defined.2).map fun called =>
          (defined.1, called.1)) =
      some (.ok (.function 0 ⟨["x"], .word "y", 1⟩),
        .error (.evaluation (.undefinedVariable "y"))) := by
    cbv
  obtain ⟨⟨r, s⟩, hdefine, hrest⟩ := Option.bind_eq_some_iff.mp hrun
  obtain ⟨⟨r', s'⟩, hcall, heq⟩ := Option.map_eq_some_iff.mp hrest
  obtain ⟨rfl, rfl⟩ := Prod.mk.inj heq
  have hglobal := Reachable.step (.start .silent) .global
  have hchild := hglobal.step (.child List.mem_cons_self)
  have hσ := hchild.step (.evaluate List.mem_cons_self hdefine)
  obtain ⟨hwf, -, -, -, hextends, -⟩ := references_good_and_scopes_endure hσ
  exact ⟨_, hσ, rfl, rfl, hwf, s', hcall, hextends _ _ _ _ _ hcall⟩

end Session

end Egg
