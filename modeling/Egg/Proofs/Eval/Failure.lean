import Egg.Proofs.Eval.Nesting
import Mathlib

/-!
# Errors end everything

In the course of an evaluation other expressions are evaluated and values are applied: *calls* are
made. A call that is made at some moment either hands a value to the frames that wait for it there,
or fails as the whole evaluation does (`Config.Makes.returns_or_fails`). So if the evaluation ends
well, every call in it has returned. If it fails, the calls that have not returned are nested in one
another, the innermost of them raised the error, and with that moment the evaluation is over
(`Program.error_aborts_evaluation`).
-/

namespace Egg

open Machine

/-! ## Calls -/

/-- What the evaluator is asked to do. -/
inductive Task where
  | evaluate (e : Expr) (scope : ScopeId)
  | apply (callee : Value) (args : List Value)

namespace Task

/-- The outcome of a task by itself, if `steps` steps suffice. -/
def outcome (steps : Nat) : Task → State → Option Outcome
  | evaluate e scope, s => Program.evaluate steps e scope s
  | apply callee args, s => Program.apply steps callee args s

/-- By itself, the task begun in `s` ends with `o` in `s'`. -/
def EndsWith (t : Task) (s : State) (o : Except RunError Value) (s' : State) : Prop :=
  ∃ steps, t.outcome steps s = some (o, s')

/-- What the first step of a task leads to. -/
def next : Task → State → Progress
  | evaluate e scope, s => enter e scope [] s
  | apply callee args, s => Machine.apply callee args [] s

variable {t : Task} {s s' : State} {r : Result}

theorem endsWith_of_ends (h : (t.next s).Ends r s') :
    t.EndsWith s (r.mapError .evaluation) s' := by
  cases t with
  | evaluate e scope =>
    exact Program.evaluate_iff_ends.mpr ⟨r, rfl, Progress.ends_running.mpr h⟩
  | apply callee args =>
    obtain ⟨n, hn⟩ := h
    refine ⟨n, ?_⟩
    rw [outcome, Program.apply_eq]
    exact Progress.outcome?_eq_some.mpr hn

/-- The first step of a task does not end it well. -/
theorem next_ne_ok (t : Task) (s : State) (v : Value) (s' : State) :
    t.next s ≠ .finished (.ok v) s' := by
  intro h
  have herror : ∃ x, Except.ok v = (.error x : Result) := by
    cases t with
    | evaluate e scope => exact (enter_eq_finished h).1
    | apply callee args => exact (apply_eq_finished h).1
  obtain ⟨x, hx⟩ := herror
  cases hx

end Task

/-- The task that begins at a moment, and the frames that wait for its value. -/
def Config.task? : Config → Option (Task × List Frame)
  | ⟨.evaluate e scope, stack, _⟩ => some (.evaluate e scope, stack)
  | ⟨.yield v, .operator [] _ :: stack, _⟩ =>
    if v.isCallable then some (.apply v [], stack) else none
  | ⟨.yield v, .argument callee done [] _ :: stack, _⟩ =>
    some (.apply callee (v :: done).reverse, stack)
  | _ => none

/-- The step from the moment at which a task begins is the first step of that task. -/
theorem Machine.step_of_task? {c : Config} {t : Task} {waiting : List Frame}
    (h : c.task? = some (t, waiting)) : step c = (t.next c.state).over waiting := by
  unfold Config.task? at h
  split at h
  · next e scope stack s =>
    cases h
    exact enter_over e scope [] waiting s
  · next v scope stack s =>
    split at h
    · next hv =>
      cases h
      rw [step, resume_operator hv]
      exact apply_over v [] [] waiting s
    · cases h
  · next v callee done scope stack s =>
    cases h
    exact apply_over callee (v :: done).reverse [] waiting s
  · cases h

/-- A task that is begun in the course of an evaluation. -/
structure Call where
  /-- The number of steps before it. -/
  time : Nat
  task : Task
  /-- The state in which it begins. -/
  state : State
  /-- The frames that wait for its value. -/
  waiting : List Frame

/-- In the evaluation that begins with `c₀`, the call is made. -/
def Config.Makes (c₀ : Config) (k : Call) : Prop :=
  ∃ c, run k.time c₀ = .running c ∧ c.task? = some (k.task, k.waiting) ∧ c.state = k.state

namespace Call

/-- The call ends with a value, which is handed to the frames that wait for it. -/
def Returns (k : Call) (c₀ : Config) : Prop :=
  ∃ v s', k.task.EndsWith k.state (.ok v) s' ∧
    ∃ n, k.time < n ∧ run n c₀ = .running ⟨.yield v, k.waiting, s'⟩

/-- The call ends with an error. -/
def Fails (k : Call) (x : EvalError) (s' : State) : Prop :=
  k.task.EndsWith k.state (.error (.evaluation x)) s'

/-- The call is made before the other one, and no value of it has been found by then. -/
def Encloses (c₀ : Config) (k k' : Call) : Prop :=
  k.time < k'.time ∧
    ∀ n v s, k.time < n → n ≤ k'.time → run n c₀ ≠ .running ⟨.yield v, k.waiting, s⟩

end Call

/-! ## Every call returns or fails -/

namespace Config.Makes

variable {c₀ : Config} {k k' : Call}

theorem eq_of_time (hk : c₀.Makes k) (hk' : c₀.Makes k') (h : k.time = k'.time) : k = k' := by
  obtain ⟨c, hrun, htask, hstate⟩ := hk
  obtain ⟨c', hrun', htask', hstate'⟩ := hk'
  rw [h, hrun'] at hrun
  cases hrun
  rw [htask'] at htask
  cases k
  cases k'
  cases htask
  simp_all

theorem run_eq (hk : c₀.Makes k) (m : Nat) :
    run (k.time + 1 + m) c₀ = ((k.task.next k.state).over k.waiting).run m := by
  obtain ⟨c, hrun, htask, hstate⟩ := hk
  have hnext : run (k.time + 1) c₀ = (k.task.next k.state).over k.waiting := by
    rw [run_add, hrun, ← hstate, ← step_of_task? htask, Progress.run_running, Progress.run_succ]
    exact Progress.run_zero _
  rw [run_add, hnext]

/-- A value that the task by itself comes to is handed to the frames that wait. -/
theorem returns_of_run (hk : c₀.Makes k) {m : Nat} {v : Value} {s' : State}
    (h : (k.task.next k.state).run m = .finished (.ok v) s') : k.Returns c₀ := by
  refine ⟨v, s', Task.endsWith_of_ends ⟨m, h⟩, ?_⟩
  cases hp : k.task.next k.state with
  | finished r₁ s₁ =>
    rw [hp] at h
    cases h
    exact absurd hp (k.task.next_ne_ok k.state v s')
  | running c₁ =>
    rw [hp] at h
    obtain ⟨j, -, -, houter⟩ := run_over_of_ok h k.waiting
    refine ⟨k.time + 1 + j, by omega, ?_⟩
    rw [hk.run_eq, hp]
    exact houter

/-- As long as a call has not returned, the evaluation goes on as the task does by itself. -/
theorem run_of_not_returns (hk : c₀.Makes k) (hnot : ¬ k.Returns c₀) (m : Nat) :
    run (k.time + 1 + m) c₀ = ((k.task.next k.state).run m).over k.waiting := by
  rw [hk.run_eq]
  cases hp : k.task.next k.state with
  | finished r₁ s₁ => rfl
  | running c₁ =>
    change run m (c₁.over k.waiting) = (run m c₁).over k.waiting
    cases hrun : run m c₁ with
    | running c' => exact run_over_of_running hrun k.waiting
    | finished r s =>
      cases r with
      | error x => exact run_over_of_error hrun k.waiting
      | ok v =>
        have hown : (k.task.next k.state).run m = .finished (.ok v) s := by
          rw [hp]
          exact hrun
        exact absurd (hk.returns_of_run hown) hnot

/-- A value that reaches the frames waiting for a call is the value of the call. -/
theorem returns_of_yield (hk : c₀.Makes k) {n : Nat} {v : Value} {s : State} (hn : k.time < n)
    (h : run n c₀ = .running ⟨.yield v, k.waiting, s⟩) : k.Returns c₀ := by
  by_contra hnot
  obtain ⟨m, rfl⟩ := Nat.exists_eq_add_of_le (Nat.succ_le_of_lt hn)
  have hrun := (hk.run_of_not_returns hnot m).symm.trans h
  cases hp : (k.task.next k.state).run m with
  | finished r₁ s₁ =>
    rw [hp] at hrun
    cases hrun
  | running c₁ =>
    rw [hp] at hrun
    obtain ⟨control, stack, s₁⟩ := c₁
    have heq : (⟨control, stack ++ k.waiting, s₁⟩ : Config) = ⟨.yield v, k.waiting, s⟩ :=
      Progress.running.inj hrun
    obtain ⟨rfl, hstack, rfl⟩ := Config.mk.inj heq
    obtain rfl : stack = [] := List.self_eq_append_left.mp hstack.symm
    have hown : (k.task.next k.state).run (m + 1) = .finished (.ok v) s₁ := by
      rw [Progress.run_add, hp]
      rfl
    exact hnot (hk.returns_of_run hown)

theorem returns_or_fails (hk : c₀.Makes k) {n : Nat} {r : Result} {s' : State}
    (h : run n c₀ = .finished r s') :
    k.Returns c₀ ∨ ∃ x, r = .error x ∧ k.Fails x s' := by
  by_cases hreturns : k.Returns c₀
  · exact .inl hreturns
  · right
    have hend : run (k.time + 1 + n) c₀ = .finished r s' :=
      Progress.run_of_le (p := .running c₀) (by omega) h
    rw [hk.run_of_not_returns hreturns] at hend
    cases hp : (k.task.next k.state).run n with
    | running c₁ =>
      rw [hp] at hend
      cases hend
    | finished r₁ s₁ =>
      rw [hp] at hend
      cases hend
      cases r with
      | ok v => exact absurd (hk.returns_of_run hp) hreturns
      | error x => exact ⟨x, rfl, Task.endsWith_of_ends ⟨n, hp⟩⟩

end Config.Makes

/-! ## The calls that have not returned -/

/-- Calls that are told apart by their times can be listed in order. -/
theorem Call.exists_chronicle {P : Call → Prop}
    (hP : ∀ k k', P k → P k' → k.time = k'.time → k = k') (n : Nat) :
    ∃ chain : List Call, chain.Pairwise (·.time < ·.time) ∧ ∀ k, k ∈ chain ↔ P k ∧ k.time < n := by
  induction n with
  | zero => exact ⟨[], .nil, by simp⟩
  | succ n ih =>
    obtain ⟨chain, hsorted, hmem⟩ := ih
    by_cases hnew : ∃ k, P k ∧ k.time = n
    · obtain ⟨k, hk, rfl⟩ := hnew
      refine ⟨chain ++ [k], ?_, fun k' => ?_⟩
      · refine List.pairwise_append.mpr ⟨hsorted, List.pairwise_singleton _ _, fun a ha b hb => ?_⟩
        obtain rfl := List.mem_singleton.mp hb
        exact ((hmem a).mp ha).2
      · rw [List.mem_append, hmem, List.mem_singleton]
        constructor
        · rintro (⟨hk', hlt⟩ | rfl)
          · exact ⟨hk', by omega⟩
          · exact ⟨hk, by omega⟩
        · rintro ⟨hk', hle⟩
          by_cases heq : k'.time = k.time
          · exact .inr (hP k' k hk' hk heq)
          · exact .inl ⟨hk', by omega⟩
    · refine ⟨chain, hsorted, fun k => ?_⟩
      rw [hmem]
      constructor
      · rintro ⟨hk, hlt⟩
        exact ⟨hk, by omega⟩
      · rintro ⟨hk, hle⟩
        have hne : k.time ≠ n := fun heq => hnew ⟨k, hk, heq⟩
        exact ⟨hk, by omega⟩

/-- The first moment of an evaluation. -/
def Config.initial (e : Expr) (scope : ScopeId) (s : State) : Config := ⟨.evaluate e scope, [], s⟩

/-- The evaluation itself, as a call. -/
def Call.whole (e : Expr) (scope : ScopeId) (s : State) : Call := ⟨0, .evaluate e scope, s, []⟩

/-- How the evaluation of `e` is given up because of the error `x`: `chain` are the calls from the
whole evaluation down to the one that raises the error after `last` steps. -/
structure Aborts (e : Expr) (scope : ScopeId) (s : State) (x : EvalError) (s' : State) (last : Nat)
    (chain : List Call) : Prop where
  /-- The state is the one at the moment when the error is raised. -/
  raised : ∃ c, run last (.initial e scope s) = .running c ∧ step c = .finished (.error x) s' ∧
    c.state = s'
  /-- There is no later moment. -/
  ended : ∀ n c, run n (.initial e scope s) = .running c → n ≤ last
  whole : chain.head? = some (.whole e scope s)
  nested : chain.Pairwise (Call.Encloses (.initial e scope s))
  fails : ∀ k ∈ chain, (Config.initial e scope s).Makes k ∧ k.Fails x s'
  /-- All calls that the last one made have returned, so it raised the error itself. -/
  innermost : ∃ k, chain.getLast? = some k ∧
    ∀ k', (Config.initial e scope s).Makes k' → k.time < k'.time → k'.Returns (.initial e scope s)
  others : ∀ k, (Config.initial e scope s).Makes k → k ∉ chain → k.Returns (.initial e scope s)

section Chain

variable {e : Expr} {scope : ScopeId} {s s' : State} {x : EvalError}

theorem Call.makes_whole : (Config.initial e scope s).Makes (.whole e scope s) :=
  ⟨.initial e scope s, rfl, rfl, rfl⟩

/-- When an evaluation fails, nothing has come of the whole. -/
theorem Call.not_returns_whole {n : Nat}
    (h : run n (.initial e scope s) = .finished (.error x) s') :
    ¬ (Call.whole e scope s).Returns (.initial e scope s) := by
  rintro ⟨v, s₁, -, m, -, hm⟩
  have hend : run (m + 1) (.initial e scope s) = .finished (.ok v) s₁ := by
    rw [run_add, hm]
    rfl
  have hunique := Progress.Ends.unique (p := .running (.initial e scope s)) ⟨n, h⟩ ⟨m + 1, hend⟩
  cases hunique.1

theorem exists_aborts {n : Nat} (h : run n (.initial e scope s) = .finished (.error x) s') :
    ∃ last chain, Aborts e scope s x s' last chain := by
  obtain ⟨last, -, c, hlast, hstep⟩ := exists_last_moment h
  have hstate : c.state = s' := by
    rcases step_eq_finished hstep with ⟨v, hv, -⟩ | ⟨-, heq⟩
    · cases hv
    · exact heq.symm
  have hover : ∀ m c', run m (.initial e scope s) = .running c' → m ≤ last := by
    intro m c' hm
    by_contra hlt
    have hend : run (last + 1) (.initial e scope s) = .finished (.error x) s' := by
      rw [run_add, hlast, Progress.run_running, Progress.run_succ, hstep]
      rfl
    have hdone : run m (.initial e scope s) = .finished (.error x) s' :=
      Progress.run_of_le (p := .running (.initial e scope s)) (m := last + 1) (by omega) hend
    exact Progress.noConfusion (hm.symm.trans hdone)
  -- the chain consists of all calls that have not returned
  obtain ⟨chain, hsorted, hmem⟩ := Call.exists_chronicle
    (P := fun k => (Config.initial e scope s).Makes k ∧ ¬ k.Returns (.initial e scope s))
    (fun k k' hk hk' => hk.1.eq_of_time hk'.1) (last + 1)
  have hothers : ∀ k, (Config.initial e scope s).Makes k → k ∉ chain →
      k.Returns (.initial e scope s) := by
    intro k hk hnot
    by_contra hreturns
    obtain ⟨c', hrun, htask⟩ := hk
    have htime := hover _ _ hrun
    exact hnot ((hmem k).mpr ⟨⟨⟨c', hrun, htask⟩, hreturns⟩, Nat.lt_succ_of_le htime⟩)
  have hwhole : Call.whole e scope s ∈ chain :=
    (hmem _).mpr ⟨⟨Call.makes_whole, Call.not_returns_whole h⟩, Nat.succ_pos last⟩
  refine ⟨last, chain, ⟨c, hlast, hstep, hstate⟩, hover, ?_, ?_, fun k hk => ?_, ?_, hothers⟩
  · cases chain with
    | nil => cases hwhole
    | cons k rest =>
      rcases List.mem_cons.mp hwhole with rfl | hrest
      · rfl
      · exact absurd ((List.pairwise_cons.mp hsorted).1 _ hrest) (Nat.not_lt_zero _)
  · refine hsorted.imp_of_mem fun {k k'} hk _ hlt => ⟨hlt, fun n v s₁ hn _ hrun => ?_⟩
    obtain ⟨⟨hmakes, hnot⟩, -⟩ := (hmem k).mp hk
    exact hnot (hmakes.returns_of_yield hn hrun)
  · obtain ⟨⟨hmakes, hnot⟩, -⟩ := (hmem k).mp hk
    refine ⟨hmakes, ?_⟩
    rcases hmakes.returns_or_fails h with hreturns | ⟨y, hy, hfails⟩
    · exact absurd hreturns hnot
    · cases hy
      exact hfails
  · rcases List.eq_nil_or_concat chain with rfl | ⟨outer, k, rfl⟩
    · cases hwhole
    · rw [List.concat_eq_append] at hsorted hothers ⊢
      refine ⟨k, by simp, fun k' hk' hlt => hothers k' hk' fun hin => ?_⟩
      rcases List.mem_append.mp hin with hin | hin
      · have hearlier := (List.pairwise_append.mp hsorted).2.2 k' hin k (by simp)
        omega
      · obtain rfl := List.mem_singleton.mp hin
        omega

end Chain

/-! ## Evaluations -/

namespace Program

/-- If an evaluation ends with a value, so do all calls that are made in it. If it ends with an error,
then that error was raised in a call, passed through all the calls around it up to the whole
evaluation, and the state is the one in which it was raised. -/
theorem error_aborts_evaluation {steps : Nat} {e : Expr} {scope : ScopeId} {s s' : State}
    {o : Except RunError Value} (h : evaluate steps e scope s = some (o, s')) :
    (∀ v, o = .ok v → ∀ k, (Config.initial e scope s).Makes k → k.Returns (.initial e scope s)) ∧
    ∀ x, o = .error x → ∃ y, x = .evaluation y ∧ ∃ last chain, Aborts e scope s y s' last chain := by
  obtain ⟨r, rfl, hrun⟩ := ends_of_evaluate h
  constructor
  · intro v hv k hk
    cases r with
    | error x => cases hv
    | ok w =>
      rcases hk.returns_or_fails hrun with hreturns | ⟨x, hx, -⟩
      · exact hreturns
      · cases hx
  · intro x hx
    cases r with
    | ok w => cases hx
    | error y =>
      cases hx
      exact ⟨y, rfl, exists_aborts hrun⟩

/-- An error in the body of a function: what stands behind the call is neither evaluated nor
printed. -/
theorem error_aborts_evaluation_in_body :
    ∃ e, Syntax.parse "do(define(f, fun(x, do(print(x), y))), f(\"a\"), print(\"b\"))" = .ok e ∧
      ∃ s', evaluate 60 e 1 (State.initial (.buffer "")).pushProgram.2 =
          some (.error (.evaluation (.undefinedVariable "y")), s') ∧ s'.sink.held = "a\n" ∧
        ∃ last chain, Aborts e 1 (State.initial (.buffer "")).pushProgram.2
          (.undefinedVariable "y") s' last chain := by
  have hrun : (Syntax.parse "do(define(f, fun(x, do(print(x), y))), f(\"a\"), print(\"b\"))"
      ).toOption.bind (fun e => (evaluate 60 e 1 (State.initial (.buffer "")).pushProgram.2).map
        fun outcome => (outcome.1, outcome.2.sink.held)) =
      some (.error (.evaluation (.undefinedVariable "y")), "a\n") := by
    cbv
  obtain ⟨e, hparse, hmap⟩ := Option.bind_eq_some_iff.mp hrun
  obtain ⟨⟨o, s'⟩, hsome, heq⟩ := Option.map_eq_some_iff.mp hmap
  obtain ⟨rfl, hsink⟩ : o = .error (.evaluation (.undefinedVariable "y")) ∧
      s'.sink.held = "a\n" := by
    simpa only [Prod.mk.injEq] using heq
  obtain ⟨y, hy, haborts⟩ := (error_aborts_evaluation hsome).2 _ rfl
  cases hy
  refine ⟨e, ?_, s', hsome, hsink, haborts⟩
  generalize Syntax.parse _ = parsed at hparse ⊢
  cases parsed with
  | error x => cases hparse
  | ok e' => exact congrArg Except.ok (Option.some.inj hparse)

end Program

end Egg
