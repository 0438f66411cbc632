import Egg.Proofs.Eval.Correspondence
import Mathlib

/-!
# Evaluations in lockstep

Evaluations of the same expression in corresponding scopes of corresponding states go on step by
step in the same way (`Machine.step_alike`). After any number of steps both go on or both have
ended, with corresponding values or with the same error, and they have printed the same
(`Machine.run_alike`). A scope that corresponds to none is not changed by them
(`Machine.get?_run_of_unrelated`).
-/

namespace Egg

open Machine

variable {ρ : Correspondence}

/-! ## Corresponding moments -/

/-- The same is to be done next. -/
inductive Control.Alike (ρ : Correspondence) : Control → Control → Prop where
  | evaluate {e : Expr} {a b : ScopeId} (h : ρ.scope a b) (he : ρ.Covers e) :
      Alike ρ (.evaluate e a) (.evaluate e b)
  | yield {v w : Value} (h : v.Alike ρ w) : Alike ρ (.yield v) (.yield w)

/-- The same waits for a value. -/
inductive Frame.Alike (ρ : Correspondence) : Frame → Frame → Prop where
  | branch {yes no : Expr} {a b : ScopeId} (h : ρ.scope a b) (hyes : ρ.Covers yes)
      (hno : ρ.Covers no) : Alike ρ (.branch yes no a) (.branch yes no b)
  | loopTest {condition body : Expr} {a b : ScopeId} (h : ρ.scope a b)
      (hcondition : ρ.Covers condition) (hbody : ρ.Covers body) :
      Alike ρ (.loopTest condition body a) (.loopTest condition body b)
  | loopBody {condition body : Expr} {a b : ScopeId} (h : ρ.scope a b)
      (hcondition : ρ.Covers condition) (hbody : ρ.Covers body) :
      Alike ρ (.loopBody condition body a) (.loopBody condition body b)
  | sequence {rest : List Expr} {a b : ScopeId} (h : ρ.scope a b) (hrest : ∀ e ∈ rest, ρ.Covers e) :
      Alike ρ (.sequence rest a) (.sequence rest b)
  | define {name : Name} {a b : ScopeId} (h : ρ.scope a b) (hname : ρ.name name) :
      Alike ρ (.define name a) (.define name b)
  | assign {name : Name} {a b : ScopeId} (h : ρ.scope a b) (hname : ρ.name name) :
      Alike ρ (.assign name a) (.assign name b)
  | operator {args : List Expr} {a b : ScopeId} (h : ρ.scope a b) (hargs : ∀ e ∈ args, ρ.Covers e) :
      Alike ρ (.operator args a) (.operator args b)
  | argument {callee callee' : Value} {done done' : List Value} {rest : List Expr} {a b : ScopeId}
      (h : ρ.scope a b) (hcallee : callee.Alike ρ callee')
      (hdone : List.Forall₂ (Value.Alike ρ) done done') (hrest : ∀ e ∈ rest, ρ.Covers e) :
      Alike ρ (.argument callee done rest a) (.argument callee' done' rest b)

structure Config.Alike (ρ : Correspondence) (c d : Config) : Prop where
  control : c.control.Alike ρ d.control
  stack : List.Forall₂ (Frame.Alike ρ) c.stack d.stack
  state : c.state.Alike ρ d.state

inductive Progress.Alike (ρ : Correspondence) : Progress → Progress → Prop where
  | running {c d : Config} (h : c.Alike ρ d) : Alike ρ (.running c) (.running d)
  | finished {r r' : Result} {s t : State} (hr : r.Resembles (Value.Alike ρ) r') (hs : s.Alike ρ t) :
      Alike ρ (.finished r s) (.finished r' t)

/-! ## Steps -/

namespace Machine

variable {s t : State} {stack stack' : List Frame}

theorem evaluate_alike (hs : s.Alike ρ t) (hst : List.Forall₂ (Frame.Alike ρ) stack stack')
    {e : Expr} {a b : ScopeId} (h : ρ.scope a b) (he : ρ.Covers e) :
    (evaluate e a stack s).Alike ρ (evaluate e b stack' t) :=
  .running ⟨.evaluate h he, hst, hs⟩

theorem yield_alike (hs : s.Alike ρ t) (hst : List.Forall₂ (Frame.Alike ρ) stack stack')
    {v w : Value} (hvw : v.Alike ρ w) : (yield v stack s).Alike ρ (yield w stack' t) :=
  .running ⟨.yield hvw, hst, hs⟩

theorem fail_alike (hs : s.Alike ρ t) (x : EvalError) : (fail x s).Alike ρ (fail x t) :=
  .finished (.error x) hs

theorem apply_alike (hs : s.Alike ρ t) (hst : List.Forall₂ (Frame.Alike ρ) stack stack')
    {callee callee' : Value} {args args' : List Value} (hcallee : callee.Alike ρ callee')
    (hargs : List.Forall₂ (Value.Alike ρ) args args') :
    (apply callee args stack s).Alike ρ (apply callee' args' stack' t) := by
  have hdescribe := hcallee.describe_eq
  cases hcallee with
  | number | text | bool => exact fail_alike hs _
  | array =>
    simp only [apply, hdescribe]
    exact fail_alike hs _
  | native b =>
    obtain ⟨hr, hs'⟩ := b.call_alike hs hargs
    simp only [apply]
    generalize b.call args s = outcome at hr hs' ⊢
    generalize b.call args' t = outcome' at hr hs' ⊢
    obtain ⟨r, s₁⟩ := outcome
    obtain ⟨r', t₁⟩ := outcome'
    cases hr with
    | ok hvw => exact yield_alike hs' hst hvw
    | error x => exact fail_alike hs' x
  | @function x y c c' hmark hparams h =>
    simp only [apply, hdescribe, hargs.length_eq, ← hparams, ← h.body]
    split
    · have hpush := hs.push (.ofList_zip c.params hargs) (.some h.scope)
      exact evaluate_alike hpush hst (hs.heap.newScopes 0) h.covers
    · exact fail_alike hs _

theorem begin_alike (hs : s.Alike ρ t) (hst : List.Forall₂ (Frame.Alike ρ) stack stack')
    {form : Form} {a b : ScopeId} (h : ρ.scope a b) (hform : ρ.Covers form.toExpr) :
    (begin form a stack s).Alike ρ (begin form b stack' t) := by
  have hargs : ∀ e ∈ form.args, ρ.Covers e := fun e he => hform.argument he
  cases form with
  | choice condition yes no =>
    have hyes := hargs yes (by simp [Form.args])
    have hno := hargs no (by simp [Form.args])
    exact evaluate_alike hs (.cons (.branch h hyes hno) hst) h (hargs condition (by simp [Form.args]))
  | loop condition body =>
    have hcondition := hargs condition (by simp [Form.args])
    have hbody := hargs body (by simp [Form.args])
    exact evaluate_alike hs (.cons (.loopTest h hcondition hbody) hst) h hcondition
  | sequence items =>
    cases items with
    | nil => exact yield_alike hs hst (.bool false)
    | cons e rest =>
      obtain ⟨he, hrest⟩ := List.forall_mem_cons.mp hargs
      exact evaluate_alike hs (.cons (.sequence h hrest) hst) h he
  | define name e =>
    have hname := (hargs (.word name) (by simp [Form.args])).name
    exact evaluate_alike hs (.cons (.define h hname) hst) h (hargs e (by simp [Form.args]))
  | assign name e =>
    have hname := (hargs (.word name) (by simp [Form.args])).name
    exact evaluate_alike hs (.cons (.assign h hname) hst) h (hargs e (by simp [Form.args]))
  | function params body =>
    have hparams : ∀ name ∈ params, ρ.name name := fun name hname =>
      (hargs (.word name) (by simp [Form.args, hname])).name
    have hbody := hargs body (by simp [Form.args])
    exact yield_alike hs.useMark hst (.function (hs.newMarks 0) rfl ⟨rfl, h, hparams, hbody⟩)

theorem enter_alike (hs : s.Alike ρ t) (hst : List.Forall₂ (Frame.Alike ρ) stack stack')
    {e : Expr} {a b : ScopeId} (h : ρ.scope a b) (he : ρ.Covers e) :
    (enter e a stack s).Alike ρ (enter e b stack' t) := by
  cases e with
  | number n => exact yield_alike hs hst (.number n)
  | text x => exact yield_alike hs hst (.text x)
  | word name =>
    simp only [enter]
    rcases rel_cases (hs.heap.lookup? h he.name) with ⟨ha, hb⟩ | ⟨v, w, ha, hb, hvw⟩
    · rw [ha, hb]
      exact fail_alike hs _
    · rw [ha, hb]
      exact yield_alike hs hst hvw
  | apply f args =>
    simp only [enter]
    split
    · next form hform =>
      split
      · next shaped hshape =>
        obtain ⟨rfl, rfl⟩ := SpecialForm.shape_eq_ok_iff.mp hshape
        obtain rfl := SpecialForm.ofOperator?_eq_some.mp hform
        exact begin_alike hs hst h he
      · exact fail_alike hs _
    · next hform =>
      have hf := he.operator (SpecialForm.ofOperator?_eq_none.mp hform)
      exact evaluate_alike hs (.cons (.operator h fun a ha => he.argument ha) hst) h hf

theorem resume_alike (hs : s.Alike ρ t) (hst : List.Forall₂ (Frame.Alike ρ) stack stack')
    {v w : Value} (hvw : v.Alike ρ w) {frame frame' : Frame} (hf : frame.Alike ρ frame') :
    (resume v frame stack s).Alike ρ (resume w frame' stack' t) := by
  cases hf with
  | branch h hyes hno =>
    simp only [resume, hvw.isTruthy_eq]
    split
    · exact evaluate_alike hs hst h hyes
    · exact evaluate_alike hs hst h hno
  | loopTest h hcondition hbody =>
    simp only [resume, hvw.isTruthy_eq]
    split
    · exact evaluate_alike hs (.cons (.loopBody h hcondition hbody) hst) h hbody
    · exact yield_alike hs hst (.bool false)
  | loopBody h hcondition hbody =>
    exact evaluate_alike hs (.cons (.loopTest h hcondition hbody) hst) h hcondition
  | @sequence rest a b h hrest =>
    cases rest with
    | nil => exact yield_alike hs hst hvw
    | cons e rest =>
      obtain ⟨he, hrest⟩ := List.forall_mem_cons.mp hrest
      exact evaluate_alike hs (.cons (.sequence h hrest) hst) h he
  | define h hname => exact yield_alike (hs.define h _ hvw) hst hvw
  | assign h hname =>
    simp only [resume]
    rcases rel_cases (hs.heap.owner? h hname) with ⟨ha, hb⟩ | ⟨owner, owner', ha, hb, howner⟩
    · rw [ha, hb]
      exact fail_alike hs _
    · rw [ha, hb]
      exact yield_alike (hs.define howner _ hvw) hst hvw
  | @operator args a b h hargs =>
    simp only [resume, hvw.isCallable_eq, hvw.describe_eq]
    split
    · cases args with
      | nil => exact apply_alike hs hst hvw .nil
      | cons e rest =>
        obtain ⟨he, hrest⟩ := List.forall_mem_cons.mp hargs
        exact evaluate_alike hs (.cons (.argument h hvw .nil hrest) hst) h he
    · exact fail_alike hs _
  | @argument callee callee' done done' rest a b h hcallee hdone hrest =>
    have hdone' := List.Forall₂.cons hvw hdone
    cases rest with
    | nil => exact apply_alike hs hst hcallee (List.rel_reverse hdone')
    | cons e rest =>
      obtain ⟨he, hrest⟩ := List.forall_mem_cons.mp hrest
      exact evaluate_alike hs (.cons (.argument h hcallee hdone' hrest) hst) h he

/-- A step goes the same way at corresponding moments. -/
theorem step_alike {c d : Config} (h : c.Alike ρ d) : (step c).Alike ρ (step d) := by
  obtain ⟨control, stack, s⟩ := c
  obtain ⟨control', stack', t⟩ := d
  obtain ⟨hcontrol, hst, hs⟩ := h
  cases hcontrol with
  | evaluate h he => exact enter_alike hs hst h he
  | yield hvw =>
    cases hst with
    | nil => exact .finished (.ok hvw) hs
    | cons hf hst => exact resume_alike hs hst hvw hf

/-! ## Runs -/

/-- So does any number of steps. -/
theorem run_alike (n : Nat) {c d : Config} (h : c.Alike ρ d) : (run n c).Alike ρ (run n d) := by
  induction n generalizing c d with
  | zero => exact .running h
  | succ n ih =>
    have hstep := step_alike h
    rw [run, run]
    generalize step c = p at hstep ⊢
    generalize step d = q at hstep ⊢
    cases hstep with
    | running h => exact ih h
    | finished hr hs => exact .finished hr hs

/-- An expression is evaluated in the same way in corresponding scopes. -/
theorem run_evaluate_alike (n : Nat) {s t : State} (hs : s.Alike ρ t) {a b : ScopeId}
    (h : ρ.scope a b) {e : Expr} (he : ρ.Covers e) :
    (run n ⟨.evaluate e a, [], s⟩).Alike ρ (run n ⟨.evaluate e b, [], t⟩) :=
  run_alike n ⟨.evaluate h he, .nil, hs⟩

end Machine

/-- A step changes, of the scopes that exist, only such as correspond to others. -/
theorem Config.Changes.get?_of_unrelated {c d : Config} {h : Heap} (hch : c.Changes h)
    (hcd : c.Alike ρ d) {id : ScopeId} (hid : id < c.state.heap.size)
    (hun : ∀ b, ¬ ρ.scope id b) : h.get? id = c.state.heap.get? id := by
  have hne : ∀ {a b}, ρ.scope a b → a ≠ id := by
    rintro a b hab rfl
    exact hun b hab
  cases hch with
  | nothing => rfl
  | callEmpty | call => exact Heap.get?_push_of_lt hid _ _
  | define =>
    obtain ⟨-, hst, -⟩ := hcd
    generalize d.stack = stack' at hst
    cases hst with
    | cons hf _ =>
      cases hf with
      | define hab _ => rw [Heap.get?_define, if_neg (hne hab)]
  | assign ho =>
    obtain ⟨-, hst, hs⟩ := hcd
    generalize d.stack = stack' at hst
    cases hst with
    | cons hf _ =>
      cases hf with
      | assign hab hname =>
        rcases rel_cases (hs.heap.owner? hab hname) with ⟨hnone, -⟩ | ⟨owner, owner', ho', -, howner⟩
        · rw [ho] at hnone
          cases hnone
        · rw [ho] at ho'
          cases ho'
          rw [Heap.get?_define, if_neg (hne howner)]

namespace Machine

/-- A scope that corresponds to none stays as it is. -/
theorem get?_run_of_unrelated (n : Nat) {c d : Config} (hcd : c.Alike ρ d) {id : ScopeId}
    (hid : id < c.state.heap.size) (hun : ∀ b, ¬ ρ.scope id b) :
    (run n c).state.heap.get? id = c.state.heap.get? id := by
  obtain ⟨scope, hscope⟩ := Heap.exists_get?_of_lt hid
  rw [hscope]
  -- the run keeps, besides the scope, that some evaluation goes along with it
  have hboth : (∃ q, (run n c).Alike ρ q) ∧ (run n c).state.heap.get? id = some scope := by
    refine run_invariant (P := fun p => (∃ q, p.Alike ρ q) ∧ p.state.heap.get? id = some scope)
      (fun c' h => ?_) n ⟨⟨_, .running hcd⟩, hscope⟩
    obtain ⟨⟨q, hq⟩, hget⟩ := h
    cases hq with
    | running hcd' =>
      refine ⟨⟨_, step_alike hcd'⟩, ?_⟩
      rw [(step_changes c').get?_of_unrelated hcd' (Heap.lt_of_get? hget) hun]
      exact hget
  exact hboth.2

end Machine

end Egg
