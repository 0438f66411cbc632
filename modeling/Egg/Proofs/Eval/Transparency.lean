import Egg.Proofs.Eval.GlobalNames
import Egg.Proofs.Eval.Output
import Egg.Proofs.Eval.Tracing
import Mathlib

/-!
# Inserted prints are transparent

A program with inserted prints does what the program without them does, step by step, except that it
makes additional steps: before an expression is evaluated that `print` has been put around, and when
its value has been found and is printed. These steps change nothing but what has been printed, so
every step of the program without prints is followed by one or more steps of the other
(`Machine.step_traced`), and both come to the same (`Program.inserted_prints_transparent`).
-/

namespace Egg

open Machine

/-! ## Moments -/

inductive Control.Traced : Control → Control → Prop where
  | evaluate {e e' : Expr} {scope : ScopeId} (h : e.Traced e') :
      Traced (.evaluate e scope) (.evaluate e' scope)
  | yield {v w : Value} (h : v.Traced w) : Traced (.yield v) (.yield w)

inductive Frame.Traced : Frame → Frame → Prop where
  | branch {yes no yes' no' : Expr} {scope : ScopeId} (hyes : yes.Traced yes')
      (hno : no.Traced no') : Traced (.branch yes no scope) (.branch yes' no' scope)
  | loopTest {condition body condition' body' : Expr} {scope : ScopeId}
      (hcondition : condition.Traced condition') (hbody : body.Traced body') :
      Traced (.loopTest condition body scope) (.loopTest condition' body' scope)
  | loopBody {condition body condition' body' : Expr} {scope : ScopeId}
      (hcondition : condition.Traced condition') (hbody : body.Traced body') :
      Traced (.loopBody condition body scope) (.loopBody condition' body' scope)
  | sequence {rest rest' : List Expr} {scope : ScopeId} (h : List.Forall₂ Expr.Traced rest rest') :
      Traced (.sequence rest scope) (.sequence rest' scope)
  | define (name : Name) (scope : ScopeId) : Traced (.define name scope) (.define name scope)
  | assign (name : Name) (scope : ScopeId) : Traced (.assign name scope) (.assign name scope)
  | operator {args args' : List Expr} {scope : ScopeId} (h : List.Forall₂ Expr.Traced args args') :
      Traced (.operator args scope) (.operator args' scope)
  | argument {callee callee' : Value} {done done' : List Value} {rest rest' : List Expr}
      {scope : ScopeId} (hcallee : callee.Traced callee')
      (hdone : List.Forall₂ Value.Traced done done') (h : List.Forall₂ Expr.Traced rest rest') :
      Traced (.argument callee done rest scope) (.argument callee' done' rest' scope)

/-- Frames that wait, and with inserted prints more of them: a print waits for the value that it is
to print. -/
inductive TracedFrames : List Frame → List Frame → Prop where
  | nil : TracedFrames [] []
  | cons {frame frame' : Frame} {stack stack' : List Frame} (hf : frame.Traced frame')
      (h : TracedFrames stack stack') : TracedFrames (frame :: stack) (frame' :: stack')
  | print {stack stack' : List Frame} (scope : ScopeId) (h : TracedFrames stack stack') :
      TracedFrames stack (.argument (.native .print) [] [] scope :: stack')

structure Config.Traced (c c' : Config) : Prop where
  control : c.control.Traced c'.control
  stack : TracedFrames c.stack c'.stack
  state : c.state.Traced c'.state

inductive Progress.Traced : Progress → Progress → Prop where
  | running {c c' : Config} (h : c.Traced c') : Traced (.running c) (.running c')
  | finished {r r' : Result} {s t : State} (hr : r.Resembles Value.Traced r') (hs : s.Traced t) :
      Traced (.finished r s) (.finished r' t)

theorem Progress.Traced.isSome_outcome? {p q : Progress} (h : p.Traced q) :
    p.outcome?.isSome ↔ q.outcome?.isSome := by
  cases h <;> exact Iff.rfl

/-! ## Steps that both make -/

namespace Machine

variable {s t : State} {stack stack' : List Frame}

theorem evaluate_traced (hs : s.Traced t) (hst : TracedFrames stack stack') {e e' : Expr}
    (h : e.Traced e') (scope : ScopeId) :
    (evaluate e scope stack s).Traced (evaluate e' scope stack' t) :=
  .running ⟨.evaluate h, hst, hs⟩

theorem yield_traced (hs : s.Traced t) (hst : TracedFrames stack stack') {v w : Value}
    (hvw : v.Traced w) : (yield v stack s).Traced (yield w stack' t) :=
  .running ⟨.yield hvw, hst, hs⟩

theorem fail_traced (hs : s.Traced t) (x : EvalError) : (fail x s).Traced (fail x t) :=
  .finished (.error x) hs

theorem apply_traced (hs : s.Traced t) (hst : TracedFrames stack stack') {callee callee' : Value}
    {args args' : List Value} (hcallee : callee.Traced callee')
    (hargs : List.Forall₂ Value.Traced args args') :
    (apply callee args stack s).Traced (apply callee' args' stack' t) := by
  have hdescribe := hcallee.describe_eq
  cases hcallee with
  | number | text | bool => exact fail_traced hs _
  | array =>
    simp only [apply, hdescribe]
    exact fail_traced hs _
  | native b =>
    obtain ⟨hr, hs'⟩ := b.call_traced hs hargs
    simp only [apply]
    generalize b.call args s = outcome at hr hs' ⊢
    generalize b.call args' t = outcome' at hr hs' ⊢
    obtain ⟨r, s₁⟩ := outcome
    obtain ⟨r', t₁⟩ := outcome'
    cases hr with
    | ok hvw => exact yield_traced hs' hst hvw
    | error x => exact fail_traced hs' x
  | @function x y c c' hmark hparams hclosure =>
    obtain ⟨hscope, hbody⟩ := hclosure
    simp only [apply, hdescribe, hargs.length_eq, hparams]
    split
    · have hpush := hs.push c'.params hargs c.scope
      have hnew : s.heap.size = t.heap.size := hs.size_eq
      rw [← hscope]
      show (evaluate c.body s.heap.size stack _).Traced (evaluate c'.body t.heap.size stack' _)
      rw [hnew]
      exact evaluate_traced hpush hst hbody _
    · exact fail_traced hs _

theorem begin_traced (hs : s.Traced t) (hst : TracedFrames stack stack') {form form' : Form}
    (h : form.Traced form') (scope : ScopeId) :
    (begin form scope stack s).Traced (begin form' scope stack' t) := by
  cases h with
  | choice hcondition hyes hno =>
    exact evaluate_traced hs (.cons (.branch hyes hno) hst) hcondition scope
  | loop hcondition hbody =>
    exact evaluate_traced hs (.cons (.loopTest hcondition hbody) hst) hcondition scope
  | sequence hitems =>
    cases hitems with
    | nil => exact yield_traced hs hst (.bool false)
    | cons he hrest => exact evaluate_traced hs (.cons (.sequence hrest) hst) he scope
  | define he => exact evaluate_traced hs (.cons (.define _ scope) hst) he scope
  | assign he => exact evaluate_traced hs (.cons (.assign _ scope) hst) he scope
  | @function params body body' hbody =>
    obtain ⟨hvalue, hstate⟩ := hs.newFunction params hbody scope
    exact yield_traced hstate hst hvalue

theorem resume_traced (hs : s.Traced t) (hst : TracedFrames stack stack') {v w : Value}
    (hvw : v.Traced w) {frame frame' : Frame} (hf : frame.Traced frame') :
    (resume v frame stack s).Traced (resume w frame' stack' t) := by
  cases hf with
  | branch hyes hno =>
    simp only [resume, hvw.isTruthy_eq]
    split
    · exact evaluate_traced hs hst hyes _
    · exact evaluate_traced hs hst hno _
  | loopTest hcondition hbody =>
    simp only [resume, hvw.isTruthy_eq]
    split
    · exact evaluate_traced hs (.cons (.loopBody hcondition hbody) hst) hbody _
    · exact yield_traced hs hst (.bool false)
  | loopBody hcondition hbody =>
    exact evaluate_traced hs (.cons (.loopTest hcondition hbody) hst) hcondition _
  | sequence h =>
    cases h with
    | nil => exact yield_traced hs hst hvw
    | cons he hrest => exact evaluate_traced hs (.cons (.sequence hrest) hst) he _
  | define name scope => exact yield_traced (hs.define scope name hvw) hst hvw
  | assign name scope =>
    simp only [resume, hs.owner?_eq]
    split
    · next owner _ => exact yield_traced (hs.define owner name hvw) hst hvw
    · exact fail_traced hs _
  | operator h =>
    simp only [resume, hvw.isCallable_eq, hvw.describe_eq]
    split
    · cases h with
      | nil => exact apply_traced hs hst hvw .nil
      | cons he hrest => exact evaluate_traced hs (.cons (.argument hvw .nil hrest) hst) he _
    · exact fail_traced hs _
  | argument hcallee hdone h =>
    have hdone' := List.Forall₂.cons hvw hdone
    cases h with
    | nil => exact apply_traced hs hst hcallee (List.rel_reverse hdone')
    | cons he hrest => exact evaluate_traced hs (.cons (.argument hcallee hdone' hrest) hst) he _

/-! ## Steps of inserted prints -/

theorem run_one (c : Config) : run 1 c = step c := by
  rw [Progress.run_succ, Progress.run_zero]

theorem printed_one (c : Config) : printed 1 c = c.printed := by
  rw [printed_succ]
  cases step c <;> exact List.append_nil _

/-- A print that is in sight goes on to the expression inside of it. -/
theorem run_print {scope : ScopeId}
    (hprint : t.heap.lookup? scope Builtin.print.name = some (.native .print)) (e : Expr)
    (stack : List Frame) (n : Nat) :
    run (n + 3) ⟨.evaluate (.apply (.word Builtin.print.name) [e]) scope, stack, t⟩ =
        run n ⟨.evaluate e scope, .argument (.native .print) [] [] scope :: stack, t⟩ ∧
      printed (n + 3) ⟨.evaluate (.apply (.word Builtin.print.name) [e]) scope, stack, t⟩ =
        printed n ⟨.evaluate e scope, .argument (.native .print) [] [] scope :: stack, t⟩ := by
  have hcall : step ⟨.evaluate (.apply (.word Builtin.print.name) [e]) scope, stack, t⟩ =
      .running ⟨.evaluate (.word Builtin.print.name) scope, .operator [e] scope :: stack, t⟩ := rfl
  have hword : step ⟨.evaluate (.word Builtin.print.name) scope, .operator [e] scope :: stack, t⟩ =
      .running ⟨.yield (.native .print), .operator [e] scope :: stack, t⟩ := by
    simp only [step, enter, hprint]
    rfl
  have hargument : step ⟨.yield (.native .print), .operator [e] scope :: stack, t⟩ =
      .running ⟨.evaluate e scope, .argument (.native .print) [] [] scope :: stack, t⟩ := rfl
  constructor
  · rw [Progress.run_succ, hcall, Progress.run_running, Progress.run_succ, hword,
      Progress.run_running, Progress.run_succ, hargument, Progress.run_running]
  · rw [printed_succ, hcall, Progress.printed, printed_succ, hword, Progress.printed, printed_succ,
      hargument, Progress.printed]
    rfl

/-- The value of a print is the value that it prints. -/
theorem step_print (scope : ScopeId) (w : Value) :
    step ⟨.yield w, .argument (.native .print) [] [] scope :: stack, t⟩ =
      .running ⟨.yield w, stack, t.printLine w.display⟩ := rfl

/-- Beginning the evaluation of an expression is followed by one step, after three for each print
that has been put around it. -/
theorem enter_traced {e e' : Expr} (h : e.Traced e') {scope : ScopeId}
    (hprint : t.heap.lookup? scope Builtin.print.name = some (.native .print)) (hs : s.Traced t)
    (hst : TracedFrames stack stack') :
    ∃ m, (enter e scope stack s).Traced (run (m + 1) ⟨.evaluate e' scope, stack', t⟩) ∧
      printed (m + 1) ⟨.evaluate e' scope, stack', t⟩ = [] := by
  induction h generalizing stack' with
  | print h ih =>
    obtain ⟨m, hm, hprinted⟩ := ih (.print scope hst)
    obtain ⟨hrun, hprinted'⟩ := run_print hprint _ stack' (m + 1)
    refine ⟨m + 3, ?_, ?_⟩
    · rw [hrun]
      exact hm
    · rw [hprinted']
      exact hprinted
  | number n => exact ⟨0, yield_traced hs hst (.number n), rfl⟩
  | text x => exact ⟨0, yield_traced hs hst (.text x), rfl⟩
  | word name =>
    refine ⟨0, ?_, printed_one _⟩
    rw [run_one]
    simp only [step, enter]
    rcases rel_cases (hs.lookup? scope name) with ⟨ha, hb⟩ | ⟨v, w, ha, hb, hvw⟩
    · rw [ha, hb]
      exact fail_traced hs _
    · rw [ha, hb]
      exact yield_traced hs hst hvw
  | @call f f' args args' hf h hlength hargs =>
    refine ⟨0, ?_, printed_one _⟩
    rw [run_one]
    have hf' := h.isOrdinary hf
    simp only [step, enter, SpecialForm.ofOperator?_eq_none.mpr hf,
      SpecialForm.ofOperator?_eq_none.mpr hf']
    exact evaluate_traced hs (.cons (.operator (Expr.forall₂_traced hlength hargs)) hst) h scope
  | @form form args args' hlength hargs hnames =>
    refine ⟨0, ?_, printed_one _⟩
    rw [run_one]
    have hform := SpecialForm.ofOperator?_eq_some.mpr (rfl : Expr.word form.name = .word form.name)
    simp only [step, enter, hform]
    rcases SpecialForm.shape_traced (Expr.forall₂_traced hlength hargs) hnames with
      ⟨misuse, ha, hb⟩ | ⟨shaped, shaped', ha, hb, hshaped⟩
    · rw [ha, hb]
      exact fail_traced hs _
    · rw [ha, hb]
      exact begin_traced hs hst hshaped scope

/-! ## Messages -/

/-- The messages of a run: what is printed in its first `n` steps. -/
def messages (n : Nat) (c : Config) : List String := (printed n c).map Value.display

theorem messages_add (m n : Nat) (c : Config) :
    messages (m + n) c = messages m c ++ ((run m c).printed n).map Value.display := by
  rw [messages, printed_add, List.map_append]
  rfl

/-- At its end, a run has put its messages into the sink, each in a line of its own. -/
theorem sink_of_finished {n : Nat} {c : Config} {r : Result} (h : run n c = .finished r t) :
    t.sink = c.state.sink.append (String.join ((messages n c).map (· ++ "\n"))) := by
  have hsink := sink_run n c
  rw [h, lines] at hsink
  rw [messages, List.map_map]
  exact hsink

/-- An application prints the same message. -/
theorem display_printed_apply {callee callee' : Value} {args args' : List Value}
    (hcallee : callee.Traced callee') (hargs : List.Forall₂ Value.Traced args args') :
    (Task.printed (.apply callee args)).map Value.display =
      (Task.printed (.apply callee' args')).map Value.display := by
  cases hcallee with
  | number | text | bool | array | function => rfl
  | native b =>
    cases b with
    | print =>
      rcases hargs with _ | ⟨hvw, _ | ⟨_, _⟩⟩
      · rfl
      · exact congrArg (fun x => [x]) hvw.display_eq
      · rfl
    | add | sub | mul | div | eq | lt | gt | array | length | element => rfl

/-- A value that is handed to a frame leads to the same message. -/
theorem display_printed_resume {v w : Value} (hvw : v.Traced w) {frame frame' : Frame}
    (hf : frame.Traced frame') :
    (Config.printed ⟨.yield v, frame :: stack, s⟩).map Value.display =
      (Config.printed ⟨.yield w, frame' :: stack', t⟩).map Value.display := by
  cases hf with
  | branch | loopTest | loopBody | sequence | define | assign => rfl
  | operator h =>
    cases h with
    | nil =>
      simp only [Config.printed, Config.task?, hvw.isCallable_eq]
      by_cases hw : w.isCallable = true
      · simp only [if_pos hw]
        exact display_printed_apply hvw .nil
      · simp only [if_neg hw]
    | cons => rfl
  | argument hcallee hdone h =>
    cases h with
    | nil => exact display_printed_apply hcallee (List.rel_reverse (.cons hvw hdone))
    | cons => rfl

/-- Handing a value to what waits for it is followed by one step, after one for each print that waits
for the value too. -/
theorem yield_step_traced {v w : Value} (hvw : v.Traced w) (hst : TracedFrames stack stack')
    (hs : s.Traced t) :
    ∃ m, (step ⟨.yield v, stack, s⟩).Traced (run (m + 1) ⟨.yield w, stack', t⟩) ∧
      (messages 1 ⟨.yield v, stack, s⟩).Sublist (messages (m + 1) ⟨.yield w, stack', t⟩) := by
  induction hst generalizing t with
  | nil =>
    refine ⟨0, .finished (.ok hvw) hs, ?_⟩
    exact List.Sublist.refl _
  | cons hf hst =>
    refine ⟨0, ?_, ?_⟩
    · rw [run_one]
      exact resume_traced hs hst hvw hf
    · rw [messages, messages, printed_one, printed_one, display_printed_resume hvw hf]
  | print scope hst ih =>
    obtain ⟨m, hm, hmessages⟩ := ih (hs.printLine_right w.display)
    refine ⟨m + 1, ?_, ?_⟩
    · rw [Progress.run_succ, step_print]
      exact hm
    · refine hmessages.trans ?_
      rw [messages, messages, printed_succ (m + 1), step_print, Progress.printed, List.map_append]
      exact List.sublist_append_right _ _

/-- A step of the program without prints is followed by one or more steps of the other one. -/
theorem step_traced {c c' : Config} (h : c.Traced c')
    (hprint : ∀ e scope, c.control = .evaluate e scope →
      c.state.heap.lookup? scope Builtin.print.name = some (.native .print)) :
    ∃ m, (step c).Traced (run (m + 1) c') ∧ (messages 1 c).Sublist (messages (m + 1) c') := by
  obtain ⟨control, stack, s⟩ := c
  obtain ⟨control', stack', t⟩ := c'
  obtain ⟨hcontrol, hst, hs⟩ := h
  cases hcontrol with
  | @evaluate e e' scope he =>
    have hthere : t.heap.lookup? scope Builtin.print.name = some (.native .print) := by
      have hrel := hs.lookup? scope Builtin.print.name
      rw [hprint e scope rfl] at hrel
      generalize t.heap.lookup? scope Builtin.print.name = found at hrel ⊢
      cases hrel with
      | some hvw =>
        cases hvw
        rfl
    obtain ⟨m, hm, hprinted⟩ := enter_traced he hthere hs hst
    refine ⟨m, hm, ?_⟩
    rw [messages, printed_one]
    exact List.nil_sublist _
  | yield hvw => exact yield_step_traced hvw hst hs

/-! ## Runs -/

/-- Wherever an expression is evaluated from this moment on, `print` has its first meaning. -/
def SeesPrint (c : Config) : Prop :=
  ∀ n c₁ e scope, run n c = .running c₁ → c₁.control = .evaluate e scope →
    c₁.state.heap.lookup? scope Builtin.print.name = some (.native .print)

/-- Any number of steps of the program without prints is followed by at least as many of the other
one, with at least the same messages. -/
theorem run_traced (n : Nat) {c c' : Config} (h : c.Traced c') (hc : SeesPrint c) :
    ∃ m, n ≤ m ∧ (run n c).Traced (run m c') ∧ (messages n c).Sublist (messages m c') := by
  induction n generalizing c c' with
  | zero => exact ⟨0, Nat.le_refl 0, .running h, List.Sublist.refl _⟩
  | succ n ih =>
    obtain ⟨m₁, hstep, hmessages⟩ := step_traced h fun e scope => hc 0 c e scope rfl
    have hadd : run (n + 1) c = (step c).run n := Progress.run_succ n c
    have hsplit : messages (n + 1) c = messages 1 c ++ ((step c).printed n).map Value.display := by
      rw [Nat.add_comm, messages_add, run_one]
    cases hnext : step c with
    | finished r s =>
      rw [hnext] at hstep hadd hsplit
      generalize hp : run (m₁ + 1) c' = p at hstep
      cases hstep with
      | @finished _ r' _ t hr hs =>
        refine ⟨m₁ + 1 + n, by omega, ?_, ?_⟩
        · rw [hadd, Machine.run_add, hp]
          exact .finished hr hs
        · have hnothing : ((Progress.finished r s).printed n).map Value.display = [] := rfl
          rw [hsplit, hnothing, List.append_nil, messages_add]
          exact hmessages.trans (List.sublist_append_left _ _)
    | running c₁ =>
      rw [hnext] at hstep hadd hsplit
      generalize hp : run (m₁ + 1) c' = p at hstep
      cases hstep with
      | @running _ c₁' h₁ =>
        have hc₁ : SeesPrint c₁ := by
          intro k c₂ e scope hrun
          refine hc (k + 1) c₂ e scope ?_
          rw [Progress.run_succ, hnext]
          exact hrun
        obtain ⟨m₂, hle, hrun, hmessages₂⟩ := ih h₁ hc₁
        refine ⟨m₁ + 1 + m₂, by omega, ?_, ?_⟩
        · rw [hadd, Machine.run_add, hp]
          exact hrun
        · rw [hsplit, messages_add, hp]
          exact hmessages.append hmessages₂

/-- Nothing is printed after the end. -/
theorem messages_of_finished {m n : Nat} {c : Config} {r r' : Result} {s s' : State}
    (hm : run m c = .finished r s) (hn : run n c = .finished r' s') : messages m c = messages n c := by
  have hafter : ∀ {i j r s}, i ≤ j → run i c = .finished r s → messages j c = messages i c := by
    intro i j r s hij hi
    obtain ⟨k, rfl⟩ := Nat.exists_eq_add_of_le hij
    rw [messages_add, hi]
    exact List.append_nil _
  rcases Nat.le_total m n with hle | hle
  · exact (hafter hle hm).symm
  · exact hafter hle hn

end Machine

/-! ## Programs -/

/-- Two results are the same error, or values that look the same and differ in inserted prints only. -/
def TracedOutcomes (r r' : Except RunError Value) : Prop :=
  (∃ x, r = .error x ∧ r' = .error x) ∨
    ∃ v w, r = .ok v ∧ r' = .ok w ∧ v.Traced w ∧ v.display = w.display

theorem Result.Resembles.tracedOutcomes {r r' : Result} (h : r.Resembles Value.Traced r') :
    TracedOutcomes (r.mapError .evaluation) (r'.mapError .evaluation) := by
  cases h with
  | ok hvw => exact .inr ⟨_, _, rfl, rfl, hvw, hvw.display_eq⟩
  | error x => exact .inl ⟨.evaluation x, rfl, rfl⟩

namespace Program

theorem seesPrint {P : Expr} (hP : P.NeverBinds Builtin.print.name) (s : State) :
    SeesPrint (.program P s) := by
  intro n c e scope hrun hcontrol
  have hglobal : Bindings.global.find? Builtin.print.name = some (.native .print) := by cbv
  exact lookup?_of_neverBinds hglobal hP hrun hcontrol

/-- Let a program never bind the name `print`, and put calls of `print` around any of its evaluated
subexpressions. Run each of both by itself, in the same state. Either both end or none of them does.
If they end, then with the same error, or with values that look the same and differ at most in prints
inside of the bodies of functions, and so do the values that are bound in their scopes. Each has put
its messages into the sink. Those of the program without the prints are among those of the other one,
in the same order, whether the programs end or not. -/
theorem inserted_prints_transparent {P P' : Expr} (h : P.Traced P')
    (hP : P.NeverBinds Builtin.print.name) (s : State) :
    ((∃ n, (evaluate n P s.pushProgram.1 s.pushProgram.2).isSome) ↔
      ∃ n, (evaluate n P' s.pushProgram.1 s.pushProgram.2).isSome) ∧
    (∀ n n' r r' t t', evaluate n P s.pushProgram.1 s.pushProgram.2 = some (r, t) →
      evaluate n' P' s.pushProgram.1 s.pushProgram.2 = some (r', t') →
        TracedOutcomes r r' ∧ t.Traced t' ∧
          t.sink = s.sink.append (String.join ((messages n (.program P s)).map (· ++ "\n"))) ∧
          t'.sink = s.sink.append (String.join ((messages n' (.program P' s)).map (· ++ "\n"))) ∧
          (messages n (.program P s)).Sublist (messages n' (.program P' s))) ∧
    (∀ n, ∃ m, (messages n (.program P s)).Sublist (messages m (.program P' s))) := by
  have hfirst : (Config.program P s).Traced (.program P' s) := ⟨.evaluate h, .nil, .refl _⟩
  have hrun (n : Nat) := run_traced n hfirst (seesPrint hP s)
  refine ⟨⟨?_, ?_⟩, ?_, ?_⟩
  · rintro ⟨n, hn⟩
    obtain ⟨m, -, htraced, -⟩ := hrun n
    exact ⟨m, htraced.isSome_outcome?.mp hn⟩
  · rintro ⟨n, hn⟩
    obtain ⟨⟨o, t⟩, ho⟩ := Option.isSome_iff_exists.mp hn
    obtain ⟨r, -, hend⟩ := ends_of_evaluate ho
    -- by the time that the program without prints has made `n` steps, the other one has ended
    obtain ⟨m, hle, htraced, -⟩ := hrun n
    have hlater : run m (.program P' s) = .finished r t :=
      Progress.run_of_le (p := .running (.program P' s)) hle hend
    rw [hlater] at htraced
    exact ⟨n, htraced.isSome_outcome?.mpr rfl⟩
  · intro n n' o o' t t' hn hn'
    obtain ⟨r, rfl, hend⟩ := ends_of_evaluate hn
    obtain ⟨r', rfl, hend'⟩ := ends_of_evaluate hn'
    obtain ⟨m, -, htraced, hmessages⟩ := hrun n
    have hstart : run n (.program P s) = .finished r t := hend
    have hstart' : run n' (.program P' s) = .finished r' t' := hend'
    rw [hstart] at htraced
    generalize hq : run m (.program P' s) = q at htraced
    cases htraced with
    | @finished _ r₁ _ t₁ hr ht =>
      obtain ⟨rfl, rfl⟩ := Progress.Ends.unique (p := .running (.program P' s)) ⟨m, hq⟩ ⟨n', hend'⟩
      refine ⟨hr.tracedOutcomes, ht, sink_of_finished hstart, sink_of_finished hstart', ?_⟩
      rw [← messages_of_finished hq hstart']
      exact hmessages
  · intro n
    obtain ⟨m, -, -, hmessages⟩ := hrun n
    exact ⟨m, hmessages⟩

/-- In `do(define(f, fun(x, x)), print(f("a")))` a print is put around the body of the function and
around the argument of the call. -/
theorem inserted_prints_transparent_in_body :
    ∃ P P' : Expr, P.Traced P' ∧ P.NeverBinds "print" ∧
      messages 40 (.program P (.initial .silent)) = ["a"] ∧
      messages 60 (.program P' (.initial .silent)) = ["a", "a", "a"] ∧
      ∃ t t', evaluate 40 P 1 (State.initial .silent).pushProgram.2 = some (.ok (.text "a"), t) ∧
        evaluate 60 P' 1 (State.initial .silent).pushProgram.2 = some (.ok (.text "a"), t') ∧
        t.Traced t' := by
  have hfunction : (Expr.apply (.word "fun") [.word "x", .word "x"]).Traced
      (.apply (.word "fun") [.word "x", .apply (.word "print") [.word "x"]]) := by
    refine .special .function (.cons (.word "x") (.cons (.print (.word "x")) .nil)) ?_
    intro i name hi hname
    obtain rfl : i = 0 := by simpa [SpecialForm.TakesName] using hi
    exact hname
  have hdefine := Expr.Traced.special .define (.cons (.word "f") (.cons hfunction .nil)) (by
    rintro i name rfl hname
    exact hname)
  have hordinary {w : Name} (hw : SpecialForm.ofName? w = none) : (Expr.word w).IsOrdinary :=
    SpecialForm.ofOperator?_eq_none.mp hw
  have hcall := Expr.Traced.ordinary (hordinary rfl) (.word "f") (.cons (.print (.text "a")) .nil)
  have hprint := Expr.Traced.ordinary (hordinary rfl) (.word "print") (.cons hcall .nil)
  have htraced := Expr.Traced.special .sequence (.cons hdefine (.cons hprint .nil)) (by
    intro i name hi
    cases hi)
  have hnever : (Expr.apply (.word "do") [.apply (.word "define") [.word "f",
      .apply (.word "fun") [.word "x", .word "x"]],
      .apply (.word "print") [.apply (.word "f") [.text "a"]]]).NeverBinds "print" := by
    simp only [Expr.neverBinds_apply, Expr.neverBinds_word, Expr.neverBinds_text, List.mem_cons,
      List.not_mem_nil, or_false, forall_eq_or_imp, forall_eq, and_true]
    decide
  have hvalue : (evaluate 40 (.apply (.word "do") [.apply (.word "define") [.word "f",
      .apply (.word "fun") [.word "x", .word "x"]],
      .apply (.word "print") [.apply (.word "f") [.text "a"]]]) 1
        (State.initial .silent).pushProgram.2).map Prod.fst = some (.ok (.text "a")) := by cbv
  have hvalue' : (evaluate 60 (.apply (.word "do") [.apply (.word "define") [.word "f",
      .apply (.word "fun") [.word "x", .apply (.word "print") [.word "x"]]],
      .apply (.word "print") [.apply (.word "f") [.apply (.word "print") [.text "a"]]]]) 1
        (State.initial .silent).pushProgram.2).map Prod.fst = some (.ok (.text "a")) := by cbv
  obtain ⟨⟨r, t⟩, hrun, rfl⟩ := Option.map_eq_some_iff.mp hvalue
  obtain ⟨⟨r', t'⟩, hrun', rfl⟩ := Option.map_eq_some_iff.mp hvalue'
  obtain ⟨-, hsame, -⟩ := inserted_prints_transparent htraced hnever (.initial .silent)
  have hstates := (hsame _ _ _ _ _ _ hrun hrun').2.1
  exact ⟨_, _, htraced, hnever, by cbv, by cbv, t, t', hrun, hrun', hstates⟩

end Program

end Egg
