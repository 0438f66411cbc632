import Egg.Proofs.Eval.Agreement

/-!
# Evaluations inside of others

The frames that wait for the value of an evaluation are not looked at while it goes on. So an
evaluation with frames below it goes like the same evaluation alone (`Machine.step_over`), up to the
moment when that one has a value, which is handed to the frames, or an error, which drops them
(`Machine.run_over_of_ok`, `Machine.run_over_of_error`, `Config.ends_over`). For a single frame this
says what a special form comes to once its first part has ended (`Machine.ends_evaluate_frame`).
-/

namespace Egg

open Machine

/-! ## Runs that end -/

namespace Progress

/-- Some number of steps leads to the result and the state. -/
def Ends (p : Progress) (r : Result) (s : State) : Prop := ∃ n, p.run n = .finished r s

variable {p : Progress} {r r' : Result} {s s' : State}

@[simp]
theorem run_zero (p : Progress) : p.run 0 = p := by cases p <;> rfl

theorem run_running (n : Nat) (c : Config) : (Progress.running c).run n = Machine.run n c := rfl

theorem run_succ (n : Nat) (c : Config) : Machine.run (n + 1) c = (step c).run n := by
  rw [Machine.run]
  cases step c <;> rfl

theorem run_add (m n : Nat) (p : Progress) : p.run (m + n) = (p.run m).run n := by
  cases p with
  | running c => exact Machine.run_add m n c
  | finished r s => rfl

/-- What has ended stays as it is. -/
theorem run_of_le {m n : Nat} (hmn : m ≤ n) (h : p.run m = .finished r s) :
    p.run n = .finished r s := by
  obtain ⟨k, rfl⟩ := Nat.exists_eq_add_of_le hmn
  rw [run_add, h]
  rfl

theorem Ends.unique (h : p.Ends r s) (h' : p.Ends r' s') : r = r' ∧ s = s' := by
  obtain ⟨m, hm⟩ := h
  obtain ⟨n, hn⟩ := h'
  have hleft := run_of_le (Nat.le_add_right m n) hm
  have hright := run_of_le (Nat.le_add_left n m) hn
  rw [hleft] at hright
  cases hright
  exact ⟨rfl, rfl⟩

@[simp]
theorem ends_finished : (Progress.finished r s).Ends r' s' ↔ r' = r ∧ s' = s := by
  constructor
  · rintro ⟨n, hn⟩
    cases hn
    exact ⟨rfl, rfl⟩
  · rintro ⟨rfl, rfl⟩
    exact ⟨0, rfl⟩

theorem ends_running {c : Config} : (Progress.running c).Ends r s ↔ (step c).Ends r s := by
  constructor
  · rintro ⟨n, hn⟩
    cases n with
    | zero => cases hn
    | succ n => exact ⟨n, (run_succ n c).symm.trans hn⟩
  · rintro ⟨n, hn⟩
    exact ⟨n + 1, (run_succ n c).trans hn⟩

/-- An evaluation ends as it does from any of its moments on. -/
theorem ends_run (n : Nat) : (p.run n).Ends r s ↔ p.Ends r s := by
  constructor
  · rintro ⟨m, hm⟩
    exact ⟨n + m, by rw [run_add, hm]⟩
  · rintro ⟨m, hm⟩
    refine ⟨m, ?_⟩
    rw [← run_add]
    exact run_of_le (Nat.le_add_left m n) hm

end Progress

theorem Progress.exists_of_outcome? {p : Progress} {o : Except RunError Value} {s : State}
    (h : p.outcome? = some (o, s)) :
    ∃ r : Result, o = r.mapError .evaluation ∧ p = .finished r s := by
  cases p with
  | running c => cases h
  | finished r s₁ =>
    cases h
    exact ⟨r, rfl, rfl⟩

theorem Program.ends_of_evaluate {steps : Nat} {e : Expr} {scope : ScopeId} {s s' : State}
    {o : Except RunError Value} (h : Program.evaluate steps e scope s = some (o, s')) :
    ∃ r : Result, o = r.mapError .evaluation ∧
      Machine.run steps ⟨.evaluate e scope, [], s⟩ = .finished r s' :=
  Progress.exists_of_outcome? h

theorem Program.apply_eq (steps : Nat) (callee : Value) (args : List Value) (s : State) :
    Program.apply steps callee args s = ((Machine.apply callee args [] s).run steps).outcome? := by
  unfold Program.apply
  cases Machine.apply callee args [] s <;> rfl

theorem Program.evaluate_iff_ends {e : Expr} {scope : ScopeId} {s s' : State}
    {o : Except RunError Value} :
    (∃ steps, Program.evaluate steps e scope s = some (o, s')) ↔
      ∃ r : Result, o = r.mapError .evaluation ∧ (Machine.evaluate e scope [] s).Ends r s' := by
  constructor
  · rintro ⟨steps, h⟩
    obtain ⟨r, ho, hrun⟩ := ends_of_evaluate h
    exact ⟨r, ho, steps, hrun⟩
  · rintro ⟨r, rfl, steps, hrun⟩
    exact ⟨steps, Progress.outcome?_eq_some.mpr hrun⟩

/-! ## The last step -/

/-- A native function that fails leaves everything as it was. -/
theorem Builtin.state_of_call_error {b : Builtin} {args : List Value} {s s' : State}
    {x : EvalError} (h : b.call args s = (.error x, s')) : s' = s := by
  unfold call at h
  split at h
  case h_8 => cases h
  case h_9 => cases h
  all_goals exact (Prod.mk.inj h).2.symm

namespace Machine

variable {stack : List Frame} {s s' : State} {r : Result}

theorem apply_eq_finished {callee : Value} {args : List Value}
    (h : apply callee args stack s = .finished r s') : (∃ x, r = .error x) ∧ s' = s := by
  cases callee with
  | function tag c =>
    simp only [apply] at h
    split at h
    · cases h
    · cases h
      exact ⟨⟨_, rfl⟩, rfl⟩
  | native b =>
    simp only [apply] at h
    split at h
    · cases h
    · next x s₁ hcall =>
      cases h
      exact ⟨⟨x, rfl⟩, Builtin.state_of_call_error hcall⟩
  | number | text | bool | array =>
    cases h
    exact ⟨⟨_, rfl⟩, rfl⟩

theorem begin_ne_finished (form : Form) (scope : ScopeId) :
    begin form scope stack s ≠ .finished r s' := by
  intro h
  cases form with
  | sequence items => cases items <;> cases h
  | choice | loop | define | assign | function => cases h

theorem enter_eq_finished {e : Expr} {scope : ScopeId}
    (h : enter e scope stack s = .finished r s') : (∃ x, r = .error x) ∧ s' = s := by
  cases e with
  | number | text => cases h
  | word name =>
    simp only [enter] at h
    split at h
    · cases h
    · cases h
      exact ⟨⟨_, rfl⟩, rfl⟩
  | apply f args =>
    simp only [enter] at h
    split at h
    · split at h
      · exact absurd h (begin_ne_finished _ scope)
      · cases h
        exact ⟨⟨_, rfl⟩, rfl⟩
    · cases h

theorem resume_eq_finished {v : Value} {frame : Frame}
    (h : resume v frame stack s = .finished r s') : (∃ x, r = .error x) ∧ s' = s := by
  cases frame with
  | branch | loopBody | define => cases h
  | loopTest condition body scope =>
    simp only [resume] at h
    split at h <;> cases h
  | sequence rest scope => cases rest <;> cases h
  | assign name scope =>
    simp only [resume] at h
    split at h
    · cases h
    · cases h
      exact ⟨⟨_, rfl⟩, rfl⟩
  | operator args scope =>
    simp only [resume] at h
    split at h
    · cases args with
      | nil => exact apply_eq_finished h
      | cons e rest => cases h
    · cases h
      exact ⟨⟨_, rfl⟩, rfl⟩
  | argument callee done rest scope =>
    cases rest with
    | nil => exact apply_eq_finished h
    | cons e rest => cases h

/-- The last step of an evaluation returns a value that nothing waits for, or raises an error. It
changes nothing. -/
theorem step_eq_finished {c : Config} (h : step c = .finished r s') :
    (∃ v, r = .ok v ∧ c = ⟨.yield v, [], s'⟩) ∨ ((∃ x, r = .error x) ∧ s' = c.state) := by
  obtain ⟨control, stack, s⟩ := c
  cases control with
  | evaluate e scope => exact .inr (enter_eq_finished h)
  | yield v =>
    cases stack with
    | nil =>
      cases h
      exact .inl ⟨v, rfl, rfl⟩
    | cons frame stack => exact .inr (resume_eq_finished h)

theorem exists_last_moment {n : Nat} {c : Config} (h : run n c = .finished r s') :
    ∃ m < n, ∃ c', run m c = .running c' ∧ step c' = .finished r s' := by
  induction n generalizing c with
  | zero => cases h
  | succ n ih =>
    rw [Progress.run_succ] at h
    cases hstep : step c with
    | finished r₁ s₁ =>
      rw [hstep] at h
      exact ⟨0, Nat.succ_pos n, c, rfl, hstep.trans h⟩
    | running c₁ =>
      rw [hstep] at h
      obtain ⟨m, hm, c', hrun, hlast⟩ := ih h
      refine ⟨m + 1, Nat.succ_lt_succ hm, c', ?_, hlast⟩
      rw [Progress.run_succ, hstep]
      exact hrun

end Machine

/-! ## Frames below -/

/-- The moment with more frames below those that wait already. -/
def Config.over (c : Config) (outer : List Frame) : Config := { c with stack := c.stack ++ outer }

/-- The evaluation with more frames below. -/
def Progress.over (p : Progress) (outer : List Frame) : Progress :=
  match p with
  | .running c => .running (c.over outer)
  | .finished result s => .finished result s

@[simp]
theorem Progress.over_nil (p : Progress) : p.over [] = p := by
  cases p with
  | running c => simp [Progress.over, Config.over]
  | finished r s => rfl

namespace Machine

theorem apply_over (callee : Value) (args : List Value) (stack outer : List Frame) (s : State) :
    apply callee args (stack ++ outer) s = (apply callee args stack s).over outer := by
  cases callee with
  | function tag c =>
    simp only [apply]
    split <;> rfl
  | native b =>
    simp only [apply]
    split <;> rfl
  | number | text | bool | array => rfl

theorem begin_over (form : Form) (scope : ScopeId) (stack outer : List Frame) (s : State) :
    begin form scope (stack ++ outer) s = (begin form scope stack s).over outer := by
  cases form with
  | sequence items => cases items <;> rfl
  | choice | loop | define | assign | function => rfl

theorem enter_over (e : Expr) (scope : ScopeId) (stack outer : List Frame) (s : State) :
    enter e scope (stack ++ outer) s = (enter e scope stack s).over outer := by
  cases e with
  | number | text => rfl
  | word name =>
    simp only [enter]
    split <;> rfl
  | apply f args =>
    simp only [enter]
    split
    · split
      · exact begin_over _ scope stack outer s
      · rfl
    · rfl

theorem resume_over (v : Value) (frame : Frame) (stack outer : List Frame) (s : State) :
    resume v frame (stack ++ outer) s = (resume v frame stack s).over outer := by
  cases frame with
  | branch | loopBody | define => rfl
  | loopTest condition body scope =>
    simp only [resume]
    split <;> rfl
  | sequence rest scope => cases rest <;> rfl
  | assign name scope =>
    simp only [resume]
    split <;> rfl
  | operator args scope =>
    simp only [resume]
    split
    · cases args with
      | nil => exact apply_over v [] stack outer s
      | cons e rest => rfl
    · rfl
  | argument callee done rest scope =>
    cases rest with
    | nil => exact apply_over callee _ stack outer s
    | cons e rest => rfl

/-- A step does not look at the frames below, unless it hands a value to them. -/
theorem step_over {c : Config} (hc : ∀ v s, c ≠ ⟨.yield v, [], s⟩) (outer : List Frame) :
    step (c.over outer) = (step c).over outer := by
  obtain ⟨control, stack, s⟩ := c
  cases control with
  | evaluate e scope => exact enter_over e scope stack outer s
  | yield v =>
    cases stack with
    | nil => exact absurd rfl (hc v s)
    | cons frame stack => exact resume_over v frame stack outer s

variable {n : Nat} {c c' : Config} {outer : List Frame} {s : State}

/-- With frames below, an evaluation goes on as it does without them. -/
theorem run_over_of_running (h : run n c = .running c') (outer : List Frame) :
    run n (c.over outer) = .running (c'.over outer) := by
  induction n generalizing c with
  | zero =>
    cases h
    rfl
  | succ n ih =>
    rw [Progress.run_succ] at h ⊢
    cases hstep : step c with
    | finished r s =>
      rw [hstep] at h
      cases h
    | running c₁ =>
      have hc : ∀ v s, c ≠ ⟨.yield v, [], s⟩ := by
        rintro v s rfl
        cases hstep
      rw [hstep] at h
      rw [step_over hc, hstep]
      exact ih h

/-- The frames below do not stop an error. -/
theorem run_over_of_error {x : EvalError} (h : run n c = .finished (.error x) s)
    (outer : List Frame) : run n (c.over outer) = .finished (.error x) s := by
  obtain ⟨m, hm, c', hrun, hlast⟩ := exists_last_moment h
  have hc : ∀ v s, c' ≠ ⟨.yield v, [], s⟩ := by
    rintro v s rfl
    cases hlast
  have hnext : run (m + 1) (c.over outer) = .finished (.error x) s := by
    rw [run_add, run_over_of_running hrun]
    change run 1 (c'.over outer) = _
    rw [Progress.run_succ, step_over hc, hlast]
    rfl
  exact Progress.run_of_le (p := .running (c.over outer)) hm hnext

/-- A value is handed to the frames below. -/
theorem run_over_of_ok {v : Value} (h : run n c = .finished (.ok v) s) (outer : List Frame) :
    ∃ m < n, run m c = .running ⟨.yield v, [], s⟩ ∧
      run m (c.over outer) = .running ⟨.yield v, outer, s⟩ := by
  obtain ⟨m, hm, c', hrun, hlast⟩ := exists_last_moment h
  rcases step_eq_finished hlast with ⟨w, heq, rfl⟩ | ⟨⟨x, hx⟩, -⟩
  · cases heq
    exact ⟨m, hm, hrun, run_over_of_running hrun outer⟩
  · cases hx

end Machine

/-- An evaluation with frames below ends as these make it end, once the evaluation alone has ended.
-/
theorem Config.ends_over {c : Config} {outer : List Frame} {r : Result} {s : State} :
    (Progress.running (c.over outer)).Ends r s ↔
      ∃ r₁ s₁, (Progress.running c).Ends r₁ s₁ ∧ (deliver r₁ outer s₁).Ends r s := by
  constructor
  · rintro ⟨n, hn⟩
    have hrun : run n (c.over outer) = .finished r s := hn
    cases halone : run n c with
    | running c' =>
      rw [run_over_of_running halone outer] at hrun
      cases hrun
    | finished r₁ s₁ =>
      refine ⟨r₁, s₁, ⟨n, halone⟩, ?_⟩
      cases r₁ with
      | error x =>
        rw [run_over_of_error halone outer] at hrun
        cases hrun
        exact Progress.ends_finished.mpr ⟨rfl, rfl⟩
      | ok v =>
        obtain ⟨m, hm, -, houter⟩ := run_over_of_ok halone outer
        have hlater := (Progress.ends_run m).mpr ⟨n, hn⟩
        rw [Progress.run_running, houter] at hlater
        exact hlater
  · rintro ⟨r₁, s₁, ⟨n, hn⟩, hd⟩
    have halone : run n c = .finished r₁ s₁ := hn
    cases r₁ with
    | error x =>
      obtain ⟨rfl, rfl⟩ := Progress.ends_finished.mp hd
      exact ⟨n, run_over_of_error halone outer⟩
    | ok v =>
      obtain ⟨m, -, -, houter⟩ := run_over_of_ok halone outer
      rw [← Progress.ends_run m, Progress.run_running, houter]
      exact hd

/-! ## Expressions that a frame waits for -/

namespace Machine

variable {scope : ScopeId} {s s' : State} {r : Result}

theorem ends_yield {v : Value} : (yield v [] s).Ends r s' ↔ r = .ok v ∧ s' = s :=
  Progress.ends_running.trans Progress.ends_finished

/-- A result that is only handed on stays the same. -/
theorem andThen_yield {r₁ : Result} {s₁ : State} :
    AndThen r₁ s₁ (fun v s₁ => (yield v [] s₁).Ends) r s' ↔ r = r₁ ∧ s' = s₁ := by
  cases r₁ with
  | ok v => exact ends_yield
  | error x => exact Iff.rfl

theorem ends_toExpr (form : Form) {stack : List Frame} :
    (evaluate form.toExpr scope stack s).Ends r s' ↔ (begin form scope stack s).Ends r s' := by
  rw [← enter_toExpr]
  exact Progress.ends_running

/-- A frame that waits for an expression goes on with its value, and an error passes by. -/
theorem ends_evaluate_frame {e : Expr} {frame : Frame}
    {next : Value → State → Result → State → Prop}
    (h : ∀ v s₁, (resume v frame [] s₁).Ends r s' ↔ next v s₁ r s') :
    (evaluate e scope [frame] s).Ends r s' ↔
      ∃ r₁ s₁, (evaluate e scope [] s).Ends r₁ s₁ ∧ AndThen r₁ s₁ next r s' := by
  have hdeliver : ∀ r₁ s₁, (deliver r₁ [frame] s₁).Ends r s' ↔ AndThen r₁ s₁ next r s' := by
    intro r₁ s₁
    cases r₁ with
    | ok v => exact Progress.ends_running.trans (h v s₁)
    | error x => exact Progress.ends_finished
  have hover : (evaluate e scope [frame] s).Ends r s' ↔
      ∃ r₁ s₁, (evaluate e scope [] s).Ends r₁ s₁ ∧ (deliver r₁ [frame] s₁).Ends r s' :=
    Config.ends_over (c := ⟨.evaluate e scope, [], s⟩)
  rw [hover]
  exact exists_congr fun r₁ => exists_congr fun s₁ => and_congr_right' (hdeliver r₁ s₁)

end Machine

end Egg
