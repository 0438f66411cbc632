import Egg.Proofs.Eval.Sequencing
import Mathlib

/-!
# Loops and their first round

A loop is a choice: if the condition holds, the body and then the loop again, and otherwise nothing.
The machine knows a loop by frames of its own, one for the condition and one for the body. What these
frames make of a value is what the branches of the choice come to, whatever the condition and the
body do, in whichever round one of them fails, and also if the loop does not end.
-/

namespace Egg

open Machine

namespace Machine

variable {condition body : Expr} {scope : ScopeId} {s s' : State} {r : Result}

/-- A choice goes on with the branch that its condition tells. -/
theorem ends_choice {yes no : Expr} :
    (evaluate (Form.choice condition yes no).toExpr scope [] s).Ends r s' ↔
      ∃ r₁ s₁, (evaluate condition scope [] s).Ends r₁ s₁ ∧
        AndThen r₁ s₁ (fun v s₁ =>
          (evaluate (if v.isTruthy then yes else no) scope [] s₁).Ends) r s' := by
  rw [ends_toExpr]
  exact ends_evaluate_frame fun _ _ => Iff.rfl

theorem ends_sequence_nil :
    (evaluate (Form.sequence []).toExpr scope [] s).Ends r s' ↔ r = .ok (.bool false) ∧ s' = s :=
  (ends_toExpr (.sequence [])).trans ends_yield

/-- A round of a loop is the body and then the whole loop. -/
theorem ends_loopBody :
    (evaluate body scope [.loopBody condition body scope] s).Ends r s' ↔
      (evaluate (Form.sequence [body, (Form.loop condition body).toExpr]).toExpr scope [] s).Ends
        r s' := by
  rw [ends_sequence_cons]
  refine ends_evaluate_frame fun v s₁ => ?_
  calc
    (resume v (.loopBody condition body scope) [] s₁).Ends r s' ↔
        (evaluate (Form.loop condition body).toExpr scope [] s₁).Ends r s' :=
      (ends_toExpr (.loop condition body)).symm
    _ ↔ (evaluate (Form.sequence [(Form.loop condition body).toExpr]).toExpr scope [] s₁).Ends
        r s' := ends_sequence_singleton.symm

/-- A loop makes of the value of its condition what the choice between another round and nothing
makes of it. -/
theorem ends_loopTest {v : Value} :
    (resume v (.loopTest condition body scope) [] s).Ends r s' ↔
      (evaluate (if v.isTruthy then (Form.sequence [body, (Form.loop condition body).toExpr]).toExpr
        else (Form.sequence []).toExpr) scope [] s).Ends r s' := by
  rw [resume]
  split
  · exact ends_loopBody
  · rw [ends_sequence_nil, ends_yield]

theorem ends_loop :
    (evaluate (Form.loop condition body).toExpr scope [] s).Ends r s' ↔
      (evaluate (Form.choice condition
        (Form.sequence [body, (Form.loop condition body).toExpr]).toExpr
        (Form.sequence []).toExpr).toExpr scope [] s).Ends r s' := by
  rw [ends_choice, ends_toExpr]
  exact ends_evaluate_frame fun _ _ => ends_loopTest

end Machine

/-- `while(c, b)` and `if(c, do(b, while(c, b)), do())` do the same: in every scope and every state, if
one of them ends, so does the other, with the same value or error and in the same state. -/
theorem Program.loop_unrolls (condition body : Expr) (scope : ScopeId) (s s' : State)
    (o : Except RunError Value) :
    (∃ steps, evaluate steps (.apply (.word "while") [condition, body]) scope s = some (o, s')) ↔
      ∃ steps, evaluate steps
        (.apply (.word "if") [condition,
          .apply (.word "do") [body, .apply (.word "while") [condition, body]],
          .apply (.word "do") []]) scope s = some (o, s') := by
  rw [evaluate_iff_ends, evaluate_iff_ends]
  exact exists_congr fun r => and_congr_right' ends_loop

/-- `while(<(i, 2), do(print("a"), set(i, +(i, 1))))` makes two rounds if `i` is zero before. -/
theorem Program.loop_unrolls_two_rounds :
    ∃ (condition body : Expr) (s s' : State),
      condition = .apply (.word "<") [.word "i", .number (.ofNat 2)] ∧
      body = .apply (.word "do") [.apply (.word "print") [.text "a"],
        .apply (.word "set") [.word "i", .apply (.word "+") [.word "i", .number (.ofNat 1)]]] ∧
      s = (State.initial (.buffer "")).pushProgram.2.define 1 "i" (.number (.ofNat 0)) ∧
      s'.sink.held = "a\na\n" ∧
      (∃ steps, evaluate steps (.apply (.word "while") [condition, body]) 1 s =
        some (.ok (.bool false), s')) ∧
      ∃ steps, evaluate steps
        (.apply (.word "if") [condition,
          .apply (.word "do") [body, .apply (.word "while") [condition, body]],
          .apply (.word "do") []]) 1 s = some (.ok (.bool false), s') := by
  have hrun : ∃ s', evaluate 100 (.apply (.word "while")
      [.apply (.word "<") [.word "i", .number (.ofNat 2)],
       .apply (.word "do") [.apply (.word "print") [.text "a"],
         .apply (.word "set") [.word "i", .apply (.word "+") [.word "i", .number (.ofNat 1)]]]]) 1
      ((State.initial (.buffer "")).pushProgram.2.define 1 "i" (.number (.ofNat 0))) =
        some (.ok (.bool false), s') ∧ s'.sink.held = "a\na\n" :=
    exists_of_test (by decide +kernel)
  obtain ⟨s', hend, htext⟩ := hrun
  exact ⟨_, _, _, s', rfl, rfl, rfl, htext, ⟨100, hend⟩, (loop_unrolls _ _ 1 _ s' _).mp ⟨100, hend⟩⟩

end Egg
