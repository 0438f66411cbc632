import Egg.Proofs.Eval.GlobalScope
import Egg.Proofs.Eval.Unrolling
import Mathlib

/-!
# Special forms that do the same

A sequence inside of a sequence may be taken out of its brackets. What stands before it is done
first in both cases, and it is the last value of the whole that counts, so there is one exception: an
empty sequence at the very end, which has a value of its own (`Program.sequence_splices`).

An assignment in the scope that owns the name is a definition. Whatever is evaluated between the
look at the scope and the change of the binding, the scope keeps its names
(`Program.assign_eq_define_of_owned`).
-/

namespace Egg

open Machine

/-! ## Sequences inside of sequences -/

namespace Machine

variable {scope : ScopeId} {s s' : State} {r : Result}

/-- Of three parts in a row, it is the same to take the first two together or the last two. -/
theorem exists_andThen_assoc {first : Result → State → Prop}
    {second third : Value → State → Result → State → Prop} :
    (∃ r₂ s₂, (∃ r₁ s₁, first r₁ s₁ ∧ AndThen r₁ s₁ second r₂ s₂) ∧ AndThen r₂ s₂ third r s') ↔
      ∃ r₁ s₁, first r₁ s₁ ∧
        AndThen r₁ s₁ (fun v s₁ r s' => ∃ r₂ s₂, second v s₁ r₂ s₂ ∧ AndThen r₂ s₂ third r s')
          r s' := by
  constructor
  · rintro ⟨r₂, s₂, ⟨r₁, s₁, hfirst, hsecond⟩, hthird⟩
    refine ⟨r₁, s₁, hfirst, ?_⟩
    cases r₁ with
    | ok v => exact ⟨r₂, s₂, hsecond, hthird⟩
    | error x =>
      obtain ⟨rfl, rfl⟩ := hsecond
      exact hthird
  · rintro ⟨r₁, s₁, hfirst, hmore⟩
    cases r₁ with
    | ok v =>
      obtain ⟨r₂, s₂, hsecond, hthird⟩ := hmore
      exact ⟨r₂, s₂, ⟨.ok v, s₁, hfirst, hsecond⟩, hthird⟩
    | error x => exact ⟨.error x, s₁, ⟨.error x, s₁, hfirst, rfl, rfl⟩, hmore⟩

/-- A sequence can be cut wherever something comes behind. The value of the part before the cut is
not looked at, so it may be that of an empty sequence. -/
theorem ends_sequence_append {xs ys : List Expr} (hys : ys ≠ []) :
    (evaluate (Form.sequence (xs ++ ys)).toExpr scope [] s).Ends r s' ↔
      ∃ r₁ s₁, (evaluate (Form.sequence xs).toExpr scope [] s).Ends r₁ s₁ ∧
        AndThen r₁ s₁ (fun _ s₁ => (evaluate (Form.sequence ys).toExpr scope [] s₁).Ends) r s' := by
  induction xs generalizing s with
  | nil =>
    simp only [ends_sequence_nil]
    constructor
    · intro hends
      exact ⟨_, s, ⟨rfl, rfl⟩, hends⟩
    · rintro ⟨_, _, ⟨rfl, rfl⟩, hends⟩
      exact hends
  | cons e xs ih =>
    cases xs with
    | nil =>
      obtain ⟨e', ys, rfl⟩ := List.exists_cons_of_ne_nil hys
      simp only [ends_sequence_singleton]
      exact ends_sequence_cons
    | cons e' xs =>
      -- the first item is done, and then the rest is cut at the same place
      have hcut : (evaluate (Form.sequence (e :: e' :: xs ++ ys)).toExpr scope [] s).Ends r s' ↔ _ :=
        ends_sequence_cons
      simp only [List.cons_append] at ih
      rw [hcut]
      simp only [ends_sequence_cons, exists_andThen_assoc]
      refine exists_congr fun r₁ => exists_congr fun s₁ => and_congr_right' ?_
      cases r₁ with
      | ok v => exact ih
      | error x => exact Iff.rfl

/-- A sequence at the start of another one can be taken out of its brackets, also if nothing is left
then. -/
theorem ends_sequence_front {ys zs : List Expr} :
    (evaluate (Form.sequence ((Form.sequence ys).toExpr :: zs)).toExpr scope [] s).Ends r s' ↔
      (evaluate (Form.sequence (ys ++ zs)).toExpr scope [] s).Ends r s' := by
  by_cases hzs : zs = []
  · subst hzs
    rw [ends_sequence_singleton, List.append_nil]
  · have hfront : (evaluate (Form.sequence ([(Form.sequence ys).toExpr] ++ zs)).toExpr scope [] s).Ends
        r s' ↔ _ := ends_sequence_append hzs
    simp only [ends_sequence_singleton] at hfront
    rw [ends_sequence_append hzs]
    exact hfront

theorem ends_sequence_splice {xs ys zs : List Expr} (h : ys ≠ [] ∨ zs ≠ []) :
    (evaluate (Form.sequence (xs ++ (Form.sequence ys).toExpr :: zs)).toExpr scope [] s).Ends r s' ↔
      (evaluate (Form.sequence (xs ++ (ys ++ zs))).toExpr scope [] s).Ends r s' := by
  have hne : ys ++ zs ≠ [] := by
    rw [Ne, List.append_eq_nil_iff]
    tauto
  rw [ends_sequence_append (List.cons_ne_nil _ _), ends_sequence_append hne]
  refine exists_congr fun r₁ => exists_congr fun s₁ => and_congr_right' ?_
  cases r₁ with
  | ok v => exact ends_sequence_front
  | error x => exact Iff.rfl

end Machine

/-- `do(xs, do(ys), zs)` and `do(xs, ys, zs)` do the same, unless both `ys` and `zs` are empty: in every
scope and every state, if one of them ends, so does the other, with the same value or error and in the
same state. -/
theorem Program.sequence_splices (xs ys zs : List Expr) (h : ys ≠ [] ∨ zs ≠ []) (scope : ScopeId)
    (s s' : State) (o : Except RunError Value) :
    (∃ steps, evaluate steps (.apply (.word "do") (xs ++ .apply (.word "do") ys :: zs)) scope s =
        some (o, s')) ↔
      ∃ steps, evaluate steps (.apply (.word "do") (xs ++ (ys ++ zs))) scope s = some (o, s') := by
  rw [evaluate_iff_ends, evaluate_iff_ends]
  exact exists_congr fun r => and_congr_right' (ends_sequence_splice h)

/-- The inner sequence assigns `x` and then fails. So nothing is printed, and the assignment stays. -/
theorem Program.sequence_splices_failing_inner :
    ∃ s', (∃ steps, evaluate steps
        (.apply (.word "do") [.apply (.word "define") [.word "x", .text "a"],
          .apply (.word "do") [.apply (.word "set") [.word "x", .text "b"], .word "y"],
          .apply (.word "print") [.word "x"]]) 1 (State.initial (.buffer "")).pushProgram.2 =
            some (.error (.evaluation (.undefinedVariable "y")), s')) ∧
      s'.heap.lookup? 1 "x" = some (.text "b") ∧ s'.sink.held = "" := by
  have hrun : (evaluate 20
      (.apply (.word "do") [.apply (.word "define") [.word "x", .text "a"],
        .apply (.word "set") [.word "x", .text "b"], .word "y",
        .apply (.word "print") [.word "x"]]) 1 (State.initial (.buffer "")).pushProgram.2).map
        (fun outcome => (outcome.1, outcome.2.heap.lookup? 1 "x", outcome.2.sink.held)) =
      some (.error (.evaluation (.undefinedVariable "y")), some (.text "b"), "") := by
    cbv
  obtain ⟨⟨o, s'⟩, hsome, heq⟩ := Option.map_eq_some_iff.mp hrun
  obtain ⟨rfl, hx, hsink⟩ : o = .error (.evaluation (.undefinedVariable "y")) ∧
      s'.heap.lookup? 1 "x" = some (.text "b") ∧ s'.sink.held = "" := by
    simpa only [Prod.mk.injEq] using heq
  have hsplice := sequence_splices [.apply (.word "define") [.word "x", .text "a"]]
    [.apply (.word "set") [.word "x", .text "b"], .word "y"] [.apply (.word "print") [.word "x"]]
    (.inl (List.cons_ne_nil _ _)) 1 (State.initial (.buffer "")).pushProgram.2 s'
    (.error (.evaluation (.undefinedVariable "y")))
  exact ⟨s', hsplice.mpr ⟨20, hsome⟩, hx, hsink⟩

/-! ## Assignments that are definitions -/

namespace Heap

variable {h : Heap} {id : ScopeId} {name : Name}

/-- A scope that owns a name is the first one on the way out to do so. -/
theorem owner?_of_bindingAt (hb : ∃ v, h.bindingAt id name = some v) : h.owner? id name = some id := by
  obtain ⟨v, hv⟩ := hb
  obtain ⟨scope, hs, hfind⟩ := Option.bind_eq_some_iff.mp hv
  have hbinds : scope.bindings.binds name = true := Bindings.binds_eq_true.mpr ⟨v, hfind⟩
  rw [owner?, hs]
  simp only [hbinds, if_true]

end Heap

namespace Machine

variable {c : Config} {frame frame' : Frame}

/-- Two frames that make the same of every value, in every state that an evaluation above them can lead
to, bring it to the same outcome after each number of steps. -/
theorem outcome?_run_over_congr
    (h : ∀ v s, s.heap.Extends c.state.heap → resume v frame [] s = resume v frame' [] s) (n : Nat) :
    (run n (c.over [frame])).outcome? = (run n (c.over [frame'])).outcome? := by
  cases halone : run n c with
  | running c' =>
    rw [run_over_of_running halone, run_over_of_running halone]
    rfl
  | finished r s =>
    cases r with
    | error x => rw [run_over_of_error halone, run_over_of_error halone]
    | ok v =>
      obtain ⟨m, hm, hrun, -⟩ := run_over_of_ok halone []
      have hext := run_extends m c
      rw [hrun] at hext
      obtain ⟨k, rfl⟩ : ∃ k, n = m + (k + 1) := ⟨n - m - 1, by omega⟩
      have hresume : ∀ f, run (m + (k + 1)) (c.over [f]) = (resume v f [] s).run k := by
        intro f
        rw [run_add, run_over_of_running hrun]
        exact Progress.run_succ k _
      rw [hresume, hresume, h v s hext]

/-- An assignment of a name that its scope owns binds it there, as a definition does. -/
theorem resume_assign_of_owned {name : Name} {scope : ScopeId} {s : State}
    (hb : ∃ v, s.heap.bindingAt scope name = some v) (v : Value) (stack : List Frame) :
    resume v (.assign name scope) stack s = resume v (.define name scope) stack s := by
  simp only [resume, Heap.owner?_of_bindingAt hb]

end Machine

/-- In a scope that owns the name, `set(x, e)` and `define(x, e)` do the same, whatever `e` does: after
each number of steps both are still going on, or both have ended with the same value or error and in
the same state. -/
theorem Program.assign_eq_define_of_owned {name : Name} {scope : ScopeId} {s : State}
    (h : ∃ v, s.heap.bindingAt scope name = some v) (e : Expr) (steps : Nat) :
    evaluate steps (.apply (.word "set") [.word name, e]) scope s =
      evaluate steps (.apply (.word "define") [.word name, e]) scope s := by
  cases steps with
  | zero => rfl
  | succ n =>
    have hassign : run (n + 1) ⟨.evaluate (.apply (.word "set") [.word name, e]) scope, [], s⟩ =
        run n ((Config.initial e scope s).over [.assign name scope]) := Progress.run_succ n _
    have hdefine : run (n + 1) ⟨.evaluate (.apply (.word "define") [.word name, e]) scope, [], s⟩ =
        run n ((Config.initial e scope s).over [.define name scope]) := Progress.run_succ n _
    rw [evaluate, evaluate, hassign, hdefine]
    refine outcome?_run_over_congr (fun v s₁ hext => ?_) n
    exact resume_assign_of_owned (hext.exists_bindingAt h) v []

/-- Before the value is there, a call has assigned `x` and a definition has given its scope another name.
-/
theorem Program.assign_eq_define_of_owned_behind_call :
    (∃ v, ((State.initial .silent).pushProgram.2.define 1 "x" (.text "a")).heap.bindingAt 1 "x" =
        some v) ∧
      (evaluate 40 (.apply (.word "set") [.word "x",
          .apply (.word "do") [.apply (.word "define") [.word "y", .text "b"],
            .apply (.apply (.word "fun") [.apply (.word "set") [.word "x", .word "y"]]) [],
            .apply (.word "array") [.word "x"]]]) 1
          ((State.initial .silent).pushProgram.2.define 1 "x" (.text "a"))).map
            (fun outcome => (outcome.1, outcome.2.heap.lookup? 1 "x")) =
        some (.ok (.array 1 [.text "b"]), some (.array 1 [.text "b"])) := by
  have howned : ∃ v, ((State.initial .silent).pushProgram.2.define 1 "x" (.text "a")).heap.bindingAt
      1 "x" = some v := ⟨.text "a", rfl⟩
  refine ⟨howned, ?_⟩
  rw [assign_eq_define_of_owned howned]
  cbv

end Egg
