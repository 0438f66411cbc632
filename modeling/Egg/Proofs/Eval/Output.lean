import Egg.Proofs.Eval.Correspondence
import Egg.Proofs.Eval.Failure
import Mathlib

/-!
# What is printed

The native function `print` hands lines to the sink, and nothing ever looks at what the sink holds.
So an evaluation goes on step by step in the same way with every sink, and what the sink holds in the
end is what it held before, followed by a line for each value that has been printed on the way
(`Machine.run_withSink`).
-/

namespace Egg

open Machine

/-! ## Printed values -/

/-- The text of some values, each in a line of its own. -/
def lines (vs : List Value) : String := String.join (vs.map fun v => v.display ++ "\n")

/-- What a task prints with its first step. -/
def Task.printed : Task → List Value
  | apply (.native .print) [v] => [v]
  | _ => []

/-- What is printed with the step from a moment. -/
def Config.printed (c : Config) : List Value :=
  match c.task? with
  | some (t, _) => t.printed
  | none => []

/-- The values that are handed to `print` in the first `n` steps, in this order. -/
def Machine.printed : Nat → Config → List Value
  | 0, _ => []
  | n + 1, c =>
    match step c with
    | .running c' => c.printed ++ printed n c'
    | .finished _ _ => c.printed

/-- The values that are handed to `print` in the next `n` steps. -/
def Progress.printed (n : Nat) : Progress → List Value
  | running c => Machine.printed n c
  | finished _ _ => []

theorem lines_append (vs ws : List Value) : lines (vs ++ ws) = lines vs ++ lines ws := by
  simp [lines]

theorem Machine.printed_succ (n : Nat) (c : Config) :
    printed (n + 1) c = c.printed ++ (step c).printed n := by
  rw [printed]
  cases step c with
  | running c' => rfl
  | finished r s => exact (List.append_nil _).symm

/-- What is printed first comes first. -/
theorem Machine.printed_add (m n : Nat) (c : Config) :
    printed (m + n) c = printed m c ++ (run m c).printed n := by
  induction m generalizing c with
  | zero =>
    rw [Nat.zero_add]
    rfl
  | succ m ih =>
    rw [Nat.succ_add, printed_succ, printed_succ, Progress.run_succ, List.append_assoc]
    congr 1
    cases step c with
    | running c' => exact ih c'
    | finished r s => rfl

namespace Sink

theorem append_append (sink : Sink) (text text' : String) :
    (sink.append text).append text' = sink.append (text ++ text') := by
  cases sink <;> simp [append, String.append_assoc]

@[simp]
theorem append_lines_nil (sink : Sink) : sink.append (lines []) = sink := sink.append_empty

theorem append_lines_singleton (sink : Sink) (v : Value) :
    sink.append (lines [v]) = sink.printLine v.display := by
  cases sink <;> simp [append, lines, printLine, String.append_assoc]

end Sink

/-! ## Another sink -/

def State.withSink (s : State) (sink : Sink) : State := { s with sink := sink }

theorem State.heap_withSink (s : State) (sink : Sink) : (s.withSink sink).heap = s.heap := rfl

def Config.withSink (c : Config) (sink : Sink) : Config := { c with state := c.state.withSink sink }

def Progress.withSink (p : Progress) (sink : Sink) : Progress :=
  match p with
  | .running c => .running (c.withSink sink)
  | .finished result s => .finished result (s.withSink sink)

theorem Progress.over_withSink (p : Progress) (sink : Sink) (outer : List Frame) :
    (p.withSink sink).over outer = (p.over outer).withSink sink := by
  cases p <;> rfl

theorem Config.task?_withSink (c : Config) (sink : Sink) : (c.withSink sink).task? = c.task? := by
  obtain ⟨control, stack, s⟩ := c
  rcases control with _ | _
  · rfl
  · rcases stack with _ | ⟨_ | _ | _ | _ | _ | _ | ⟨_ | _, _⟩ | ⟨_, _, _ | _, _⟩, stack⟩ <;> rfl

theorem Config.printed_withSink (c : Config) (sink : Sink) :
    (c.withSink sink).printed = c.printed := by
  rw [printed, task?_withSink, printed]

theorem Builtin.call_withSink (b : Builtin) (args : List Value) (s : State) (sink : Sink) :
    b.call args (s.withSink sink) =
      ((b.call args s).1,
        (b.call args s).2.withSink (sink.append (lines (Task.printed (.apply (.native b) args))))) := by
  cases b with
  | print =>
    rcases args with _ | ⟨v, _ | ⟨w, rest⟩⟩
    · simp [call, Task.printed]
    · simp only [Task.printed, Sink.append_lines_singleton]
      rfl
    · simp [call, Task.printed]
  | add | sub | mul | div | eq | lt | gt | array | length | element =>
    simp only [Task.printed, Sink.append_lines_nil]
    rcases args with _ | ⟨x, _ | ⟨y, _ | ⟨z, rest⟩⟩⟩ <;> rfl

namespace Machine

theorem apply_withSink (callee : Value) (args : List Value) (stack : List Frame) (s : State)
    (sink : Sink) :
    apply callee args stack (s.withSink sink) = (apply callee args stack s).withSink
      (sink.append (lines (Task.printed (.apply callee args)))) := by
  cases callee with
  | native b =>
    simp only [apply, b.call_withSink args s sink]
    cases b.call args s with
    | mk r s₁ => cases r <;> rfl
  | function tag c =>
    simp only [apply, Task.printed, Sink.append_lines_nil]
    split <;> rfl
  | number | text | bool | array =>
    simp only [Task.printed, Sink.append_lines_nil]
    rfl

theorem begin_withSink (form : Form) (scope : ScopeId) (stack : List Frame) (s : State)
    (sink : Sink) :
    begin form scope stack (s.withSink sink) = (begin form scope stack s).withSink sink := by
  cases form with
  | sequence items => cases items <;> rfl
  | choice | loop | define | assign | function => rfl

theorem enter_withSink (e : Expr) (scope : ScopeId) (stack : List Frame) (s : State) (sink : Sink) :
    enter e scope stack (s.withSink sink) = (enter e scope stack s).withSink sink := by
  cases e with
  | number | text => rfl
  | word name =>
    simp only [enter, State.heap_withSink]
    split <;> rfl
  | apply f args =>
    simp only [enter]
    split
    · split
      · exact begin_withSink _ scope stack s sink
      · rfl
    · rfl

/-- The first step of a task takes the same way with every sink. -/
theorem next_withSink (t : Task) (s : State) (sink : Sink) :
    t.next (s.withSink sink) = (t.next s).withSink (sink.append (lines t.printed)) := by
  cases t with
  | evaluate e scope =>
    simp only [Task.printed, Sink.append_lines_nil]
    exact enter_withSink e scope [] s sink
  | apply callee args => exact apply_withSink callee args [] s sink

/-- So does every other step. -/
theorem step_withSink_of_task?_eq_none {c : Config} (h : c.task? = none) (sink : Sink) :
    step (c.withSink sink) = (step c).withSink sink := by
  obtain ⟨control, stack, s⟩ := c
  cases control with
  | evaluate e scope => cases h
  | yield v =>
    cases stack with
    | nil => rfl
    | cons frame stack =>
      show resume v frame stack (s.withSink sink) = (resume v frame stack s).withSink sink
      cases frame with
      | branch | loopBody | define => rfl
      | loopTest | assign =>
        simp only [resume, State.heap_withSink]
        split <;> rfl
      | sequence rest scope => cases rest <;> rfl
      | operator args scope =>
        simp only [resume]
        split
        · next hv =>
          cases args with
          | nil =>
            rw [Config.task?, if_pos hv] at h
            cases h
          | cons e rest => rfl
        · rfl
      | argument callee done rest scope =>
        cases rest with
        | nil => cases h
        | cons e rest => rfl

/-- With another sink, a step prints the same and comes to the same. -/
theorem step_withSink (c : Config) (sink : Sink) :
    step (c.withSink sink) = (step c).withSink (sink.append (lines c.printed)) := by
  unfold Config.printed
  cases htask : c.task? with
  | none =>
    rw [Sink.append_lines_nil]
    exact step_withSink_of_task?_eq_none htask sink
  | some task =>
    obtain ⟨t, waiting⟩ := task
    have htask' : (c.withSink sink).task? = some (t, waiting) := (c.task?_withSink sink).trans htask
    rw [step_of_task? htask', step_of_task? htask, ← Progress.over_withSink]
    exact congrArg (Progress.over · waiting) (next_withSink t c.state sink)

/-- So does any number of steps. -/
theorem run_withSink (n : Nat) (c : Config) (sink : Sink) :
    run n (c.withSink sink) = (run n c).withSink (sink.append (lines (printed n c))) ∧
      printed n (c.withSink sink) = printed n c := by
  induction n generalizing c sink with
  | zero =>
    rw [printed, Sink.append_lines_nil]
    exact ⟨rfl, rfl⟩
  | succ n ih =>
    rw [Progress.run_succ, Progress.run_succ, printed_succ, printed_succ, step_withSink,
      c.printed_withSink, lines_append, ← Sink.append_append]
    cases step c with
    | running c' =>
      obtain ⟨hrun, hprinted⟩ := ih c' (sink.append (lines c.printed))
      exact ⟨hrun, congrArg _ hprinted⟩
    | finished r s =>
      refine ⟨?_, rfl⟩
      rw [Progress.printed, Sink.append_lines_nil]
      rfl

theorem sink_run (n : Nat) (c : Config) :
    (run n c).state.sink = c.state.sink.append (lines (printed n c)) := by
  have hrun : run n c = (run n c).withSink (c.state.sink.append (lines (printed n c))) :=
    (run_withSink n c c.state.sink).1
  generalize run n c = p at hrun ⊢
  rw [hrun]
  cases p <;> rfl

end Machine

/-! ## Evaluations -/

/-- An evaluation is the same with every sink: the same values are printed in the same order, and it
ends with the same value or error and the same scopes, or does not end. At every moment, and in the
end whether it fails or not, a buffer holds what it held before, followed by the printed values in
lines of their own. -/
theorem Program.sink_without_influence (steps : Nat) (e : Expr) (scope : ScopeId) (heap : Heap)
    (tag : Tag) :
    ∃ vs : List Value,
      (∀ sink, printed steps ⟨.evaluate e scope, [], ⟨heap, sink, tag⟩⟩ = vs ∧
        (run steps ⟨.evaluate e scope, [], ⟨heap, sink, tag⟩⟩).state.sink =
          sink.append (lines vs)) ∧
      ((∀ sink, evaluate steps e scope ⟨heap, sink, tag⟩ = none) ∨
        ∃ r heap' tag',
          (∀ held, evaluate steps e scope ⟨heap, .buffer held, tag⟩ =
            some (r, ⟨heap', .buffer (held ++ lines vs), tag'⟩)) ∧
          evaluate steps e scope ⟨heap, .silent, tag⟩ = some (r, ⟨heap', .silent, tag'⟩)) := by
  let c : Config := ⟨.evaluate e scope, [], ⟨heap, .silent, tag⟩⟩
  have hrun (sink : Sink) : run steps ⟨.evaluate e scope, [], ⟨heap, sink, tag⟩⟩ =
      (run steps c).withSink (sink.append (lines (printed steps c))) := (run_withSink steps c sink).1
  have hprinted (sink : Sink) : printed steps ⟨.evaluate e scope, [], ⟨heap, sink, tag⟩⟩ =
      printed steps c := (run_withSink steps c sink).2
  refine ⟨printed steps c, fun sink => ⟨hprinted sink, ?_⟩, ?_⟩
  · rw [sink_run, hprinted]
  · have hevaluate (sink : Sink) : evaluate steps e scope ⟨heap, sink, tag⟩ = Progress.outcome? _ :=
      congrArg Progress.outcome? (hrun sink)
    cases hc : run steps c with
    | running c' =>
      refine .inl fun sink => ?_
      rw [hevaluate, hc]
      rfl
    | finished r s =>
      refine .inr ⟨r.mapError .evaluation, s.heap, s.nextTag, fun held => ?_, ?_⟩
      · rw [hevaluate, hc]
        rfl
      · rw [hevaluate, hc]
        rfl

/-- `do(print("a"), print("b"))` with a buffer that holds a line, and with a sink that drops what is
printed. -/
theorem Program.sink_without_influence_two_prints :
    ∃ (e : Expr) (heap heap' : Heap) (tag' : Tag),
      e = .apply (.word "do")
        [.apply (.word "print") [.text "a"], .apply (.word "print") [.text "b"]] ∧
      heap = (State.initial .silent).pushProgram.2.heap ∧
      evaluate 20 e 1 ⟨heap, .buffer "x\n", 0⟩ =
        some (.ok (.text "b"), ⟨heap', .buffer "x\na\nb\n", tag'⟩) ∧
      evaluate 20 e 1 ⟨heap, .silent, 0⟩ = some (.ok (.text "b"), ⟨heap', .silent, tag'⟩) := by
  obtain ⟨e, he⟩ : ∃ e : Expr, e = .apply (.word "do")
    [.apply (.word "print") [.text "a"], .apply (.word "print") [.text "b"]] := ⟨_, rfl⟩
  obtain ⟨heap, hheap⟩ : ∃ heap, heap = (State.initial .silent).pushProgram.2.heap := ⟨_, rfl⟩
  obtain ⟨vs, hprinted, hends⟩ := sink_without_influence 20 e 1 heap 0
  have hvs : vs = [.text "a", .text "b"] := by
    rw [← (hprinted .silent).1, he, hheap]
    cbv
  have hvalue : (evaluate 20 e 1 ⟨heap, .silent, 0⟩).map (·.1) = some (.ok (.text "b")) := by
    rw [he, hheap]
    cbv
  rcases hends with hnone | ⟨r, heap', tag', hbuffer, hsilent⟩
  · rw [hnone] at hvalue
    cases hvalue
  · rw [hsilent] at hvalue
    cases hvalue
    rw [hvs] at hbuffer
    exact ⟨e, heap, heap', tag', he, hheap, hbuffer "x\n", hsilent⟩

end Egg
