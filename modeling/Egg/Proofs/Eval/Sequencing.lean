import Egg.Proofs.Eval.Nesting
import Egg.Proofs.Syntax.Embedding
import Mathlib

/-!
# Programs one after another

A host may run programs one after another in one scope and stop at the first one that fails, as
someone does who types them in line by line. It may as well put them into one program that evaluates
them in sequence: value, error, scopes and output are the same, and the one run ends exactly if the
other one does (`Program.runEach_iff_runIn_sequenceSource`).
-/

namespace Egg

open Machine

/-! ## Sequences -/

namespace Machine

variable {scope : ScopeId} {s s' : State} {r : Result}

theorem ends_sequence_singleton {e : Expr} :
    (evaluate (Form.sequence [e]).toExpr scope [] s).Ends r s' ↔
      (evaluate e scope [] s).Ends r s' := by
  have hfirst : (evaluate (Form.sequence [e]).toExpr scope [] s).Ends r s' ↔
      ∃ r₁ s₁, (evaluate e scope [] s).Ends r₁ s₁ ∧
        AndThen r₁ s₁ (fun v s₁ => (yield v [] s₁).Ends) r s' :=
    (ends_toExpr (.sequence [e])).trans (ends_evaluate_frame fun _ _ => Iff.rfl)
  rw [hfirst]
  constructor
  · rintro ⟨r₁, s₁, he, hlast⟩
    obtain ⟨rfl, rfl⟩ := andThen_yield.mp hlast
    exact he
  · intro he
    exact ⟨r, s', he, andThen_yield.mpr ⟨rfl, rfl⟩⟩

/-- A sequence begins with its first item, and goes on as the sequence of the others. -/
theorem ends_sequence_cons {e e' : Expr} {rest : List Expr} :
    (evaluate (Form.sequence (e :: e' :: rest)).toExpr scope [] s).Ends r s' ↔
      ∃ r₁ s₁, (evaluate e scope [] s).Ends r₁ s₁ ∧
        AndThen r₁ s₁ (fun _ s₁ => (evaluate (Form.sequence (e' :: rest)).toExpr scope [] s₁).Ends)
          r s' := by
  rw [ends_toExpr]
  refine ends_evaluate_frame fun v s₁ => ?_
  exact (ends_toExpr (.sequence (e' :: rest))).symm

end Machine

/-! ## Programs -/

namespace Program

/-- The outcome of running sources one after another in a scope, up to the first one that fails, if
`steps` steps suffice for each of them. -/
def runEach (steps : Nat) (scope : ScopeId) : List String → State → Option Outcome
  | [], s => some (.ok (.bool false), s)
  | [source], s => runIn steps source scope s
  | source :: source' :: rest, s =>
    match runIn steps source scope s with
    | some (.ok _, s) => runEach steps scope (source' :: rest) s
    | stopped => stopped

variable {scope : ScopeId} {s s' : State} {o : Except RunError Value}

theorem runIn_of_parse {source : String} {e : Expr} (h : Syntax.parse source = .ok e)
    (steps : Nat) (scope : ScopeId) (s : State) :
    runIn steps source scope s = evaluate steps e scope s := by
  simp only [runIn, start, h]
  rfl

theorem runIn_mono {steps steps' : Nat} (hle : steps ≤ steps') {source : String}
    (h : runIn steps source scope s = some (o, s')) :
    runIn steps' source scope s = some (o, s') := by
  cases hp : Syntax.parse source with
  | error x =>
    simp only [runIn, start, hp] at h ⊢
    exact h
  | ok e =>
    rw [runIn_of_parse hp] at h ⊢
    obtain ⟨r, rfl, hrun⟩ := ends_of_evaluate h
    have hrun' := Progress.run_of_le (p := .running ⟨.evaluate e scope, [], s⟩) hle hrun
    exact Progress.outcome?_eq_some.mpr hrun'

theorem runEach_mono {steps steps' : Nat} (hle : steps ≤ steps') {sources : List String}
    (h : runEach steps scope sources s = some (o, s')) :
    runEach steps' scope sources s = some (o, s') := by
  induction sources generalizing s with
  | nil => exact h
  | cons source rest ih =>
    cases rest with
    | nil => exact runIn_mono hle h
    | cons source' rest =>
      rw [runEach] at h ⊢
      cases hrun : runIn steps source scope s with
      | none =>
        rw [hrun] at h
        cases h
      | some first =>
        obtain ⟨o₁, s₁⟩ := first
        rw [hrun] at h
        rw [runIn_mono hle hrun]
        cases o₁ with
        | ok v => exact ih h
        | error x => exact h

/-- What running programs one after another comes to, in terms of their trees. -/
theorem runEach_iff_ends {sources : List String} {es : List Expr}
    (h : List.Forall₂ (fun source e => Syntax.parse source = .ok e) sources es)
    (hne : sources ≠ []) :
    (∃ steps, runEach steps scope sources s = some (o, s')) ↔
      ∃ r : Result, o = r.mapError .evaluation ∧
        (Machine.evaluate (Form.sequence es).toExpr scope [] s).Ends r s' := by
  induction h generalizing s with
  | nil => exact absurd rfl hne
  | @cons source e sources es hparse hrest ih =>
    cases hrest with
    | nil =>
      simp only [runEach, runIn_of_parse hparse, ends_sequence_singleton]
      exact evaluate_iff_ends
    | @cons source' e' sources es hparse' hrest =>
      have hlater := fun {s} => ih (s := s) (by simp)
      constructor
      · rintro ⟨steps, hsteps⟩
        rw [runEach, runIn_of_parse hparse] at hsteps
        cases hrun : evaluate steps e scope s with
        | none =>
          rw [hrun] at hsteps
          cases hsteps
        | some first =>
          obtain ⟨o₁, s₁⟩ := first
          rw [hrun] at hsteps
          obtain ⟨r₁, rfl, hends⟩ := evaluate_iff_ends.mp ⟨steps, hrun⟩
          cases r₁ with
          | error x =>
            cases hsteps
            exact ⟨.error x, rfl, ends_sequence_cons.mpr ⟨_, _, hends, rfl, rfl⟩⟩
          | ok v =>
            obtain ⟨r, ho, hmore⟩ := hlater.mp ⟨steps, hsteps⟩
            exact ⟨r, ho, ends_sequence_cons.mpr ⟨_, _, hends, hmore⟩⟩
      · rintro ⟨r, rfl, hends⟩
        obtain ⟨r₁, s₁, hfirst, hnext⟩ := ends_sequence_cons.mp hends
        obtain ⟨steps₁, hrun⟩ := evaluate_iff_ends.mpr ⟨r₁, rfl, hfirst⟩
        rw [← runIn_of_parse hparse] at hrun
        cases r₁ with
        | error x =>
          obtain ⟨rfl, rfl⟩ := hnext
          refine ⟨steps₁, ?_⟩
          rw [runEach, hrun]
          rfl
        | ok v =>
          obtain ⟨steps₂, hmore⟩ := hlater.mpr ⟨r, rfl, hnext⟩
          -- both runs are given as many steps as the longer one needs
          refine ⟨max steps₁ steps₂, ?_⟩
          rw [runEach, runIn_mono (le_max_left _ _) hrun]
          exact runEach_mono (le_max_right _ _) hmore

/-- Running programs one after another in a scope, up to the first one that fails, comes to the same
value or error in the same state as running the one program that has them in sequence. -/
theorem runEach_iff_runIn_sequenceSource {sources : List String} (hne : sources ≠ [])
    (hparse : ∀ source ∈ sources, ∃ e, Syntax.parse source = .ok e) (scope : ScopeId)
    (s s' : State) (o : Except RunError Value) :
    (∃ steps, runEach steps scope sources s = some (o, s')) ↔
      ∃ steps, runIn steps (Syntax.sequenceSource sources) scope s = some (o, s') := by
  obtain ⟨es, hes⟩ : ∃ es, List.Forall₂ (fun source e => Syntax.parse source = .ok e) sources es := by
    clear hne
    induction sources with
    | nil => exact ⟨[], .nil⟩
    | cons source rest ih =>
      obtain ⟨e, he⟩ := hparse source List.mem_cons_self
      obtain ⟨es, hes⟩ := ih fun source h => hparse source (List.mem_cons_of_mem _ h)
      exact ⟨e :: es, .cons he hes⟩
  rw [runEach_iff_ends hes hne]
  simp only [runIn_of_parse (Syntax.parse_sequenceSource hes hne)]
  exact evaluate_iff_ends.symm

/-- Three programs, of which the first one has comments around it and the second one assigns `x` and
then fails. The third one is not run, neither alone nor in the sequence. -/
theorem runEach_iff_runIn_failing_second :
    ∃ s', runEach 20 1 ["# a\ndefine(x, \"a\") # b", "do(set(x, \"b\"), y)", "print(x)"]
        (State.initial (.buffer "")).pushProgram.2 =
          some (.error (.evaluation (.undefinedVariable "y")), s') ∧
      s'.heap.lookup? 1 "x" = some (.text "b") ∧ s'.sink.held = "" ∧
      ∃ steps, runIn steps
        "do(# a\ndefine(x, \"a\") # b\n,do(set(x, \"b\"), y)\n,print(x)\n)" 1
        (State.initial (.buffer "")).pushProgram.2 =
          some (.error (.evaluation (.undefinedVariable "y")), s') := by
  have hrun : (runEach 20 1 ["# a\ndefine(x, \"a\") # b", "do(set(x, \"b\"), y)", "print(x)"]
      (State.initial (.buffer "")).pushProgram.2).map
        (fun outcome => (outcome.1, outcome.2.heap.lookup? 1 "x", outcome.2.sink.held)) =
      some (.error (.evaluation (.undefinedVariable "y")), some (.text "b"), "") := by
    cbv
  obtain ⟨⟨o, s'⟩, hsome, heq⟩ := Option.map_eq_some_iff.mp hrun
  obtain ⟨rfl, hx, hsink⟩ : o = .error (.evaluation (.undefinedVariable "y")) ∧
      s'.heap.lookup? 1 "x" = some (.text "b") ∧ s'.sink.held = "" := by
    simpa only [Prod.mk.injEq] using heq
  refine ⟨s', hsome, hx, hsink, ?_⟩
  have hparse : ∀ source ∈ ["# a\ndefine(x, \"a\") # b", "do(set(x, \"b\"), y)", "print(x)"],
      ∃ e, Syntax.parse source = .ok e := by
    have hfirst : ∃ e, Syntax.parse "# a\ndefine(x, \"a\") # b" = .ok e := ⟨_, by cbv⟩
    have hsecond : ∃ e, Syntax.parse "do(set(x, \"b\"), y)" = .ok e := ⟨_, by cbv⟩
    have hthird : ∃ e, Syntax.parse "print(x)" = .ok e := ⟨_, by cbv⟩
    simp only [List.forall_mem_cons]
    exact ⟨hfirst, hsecond, hthird, by simp⟩
  have htext : Syntax.sequenceSource
      ["# a\ndefine(x, \"a\") # b", "do(set(x, \"b\"), y)", "print(x)"] =
        "do(# a\ndefine(x, \"a\") # b\n,do(set(x, \"b\"), y)\n,print(x)\n)" := by
    cbv
  rw [← htext]
  exact (runEach_iff_runIn_sequenceSource (by simp) hparse 1 _ s' _).mp ⟨20, hsome⟩

end Program

end Egg
