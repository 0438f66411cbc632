import Egg.Program
import Egg.Proofs.Eval.Soundness
import Mathlib

/-!
# The machine agrees with the rules

The other half of the agreement: whatever the rules derive, the machine finds. For an expression with
a derivation the machine, whatever frames are waiting, comes to the moment when the value is handed
to them, or ends with the error (`Evaluates.reaches`). The proof follows the derivation, and each rule
becomes a path that leads from one moment to the next.

Together with the soundness of steps this gives `evaluate_iff_evaluates`: an evaluation ends with a
result in a state exactly if the rules derive this result and this state.
-/

namespace Egg

/-! ## Paths -/

/-- At most `n` more steps of an evaluation. -/
def Progress.run (n : Nat) : Progress → Progress
  | .running c => Machine.run n c
  | .finished result s => .finished result s

theorem Progress.run_wellFormed (n : Nat) {p : Progress} (hp : p.WellFormed) :
    (p.run n).WellFormed := by
  cases p with
  | running c => exact Machine.run_wellFormed n hp
  | finished result s => exact hp

theorem Machine.run_add (m n : Nat) (c : Config) : run (m + n) c = (run m c).run n := by
  induction m generalizing c with
  | zero => rw [Nat.zero_add]; rfl
  | succ m ih =>
    rw [Nat.succ_add]
    simp only [run]
    split
    · exact ih _
    · rfl

/-- From a well-formed `p` some number of steps leads to `q`. -/
def Reaches (p q : Progress) : Prop := p.WellFormed → ∃ n, p.run n = q

namespace Reaches

theorem refl (p : Progress) : Reaches p p := fun _ => ⟨0, by cases p <;> rfl⟩

theorem trans {p q t : Progress} (hpq : Reaches p q) (hqt : Reaches q t) : Reaches p t := by
  intro hp
  obtain ⟨m, hm⟩ := hpq hp
  have hq := Progress.run_wellFormed m hp
  rw [hm] at hq
  obtain ⟨n, hn⟩ := hqt hq
  refine ⟨m + n, ?_⟩
  cases p with
  | running c =>
    have hm' : Machine.run m c = q := hm
    rw [← hn, ← hm']
    exact Machine.run_add m n c
  | finished result s =>
    rw [← hn, ← hm]
    rfl

instance : Trans Reaches Reaches Reaches := ⟨trans⟩

theorem step (c : Config) : Reaches (.running c) (Machine.step c) := by
  intro _
  refine ⟨1, ?_⟩
  simp only [Progress.run, Machine.run]
  split <;> simp_all

end Reaches

namespace Machine

/-- The moment after an evaluation: a value is handed to the frames, and an error is final. -/
def deliver (r : Result) (stack : List Frame) (s : State) : Progress :=
  match r with
  | .ok v => yield v stack s
  | .error x => fail x s

variable {stack : List Frame} {s : State}

theorem reaches_of_enter {e : Expr} {scope : ScopeId} {p : Progress}
    (h : enter e scope stack s = p) : Reaches (evaluate e scope stack s) p :=
  h ▸ .step ⟨.evaluate e scope, stack, s⟩

theorem reaches_of_resume {v : Value} {frame : Frame} {p : Progress}
    (h : resume v frame stack s = p) : Reaches (yield v (frame :: stack) s) p :=
  h ▸ .step ⟨.yield v, frame :: stack, s⟩

theorem evaluate_reaches_begin (form : Form) (scope : ScopeId) :
    Reaches (evaluate form.toExpr scope stack s) (begin form scope stack s) :=
  reaches_of_enter (enter_toExpr form scope stack s)

/-- A call begins with its operator. -/
theorem evaluate_reaches_operator {f : Expr} (hf : f.IsOrdinary) (args : List Expr)
    (scope : ScopeId) :
    Reaches (evaluate (.apply f args) scope stack s)
      (evaluate f scope (.operator args scope :: stack) s) := by
  apply reaches_of_enter
  simp only [enter, SpecialForm.ofOperator?_eq_none.mpr hf]

/-- A path that begins with an expression and goes on with its first part can be entered at the
first part. This is how a loop comes round, and how a sequence goes on. -/
theorem reaches_of_evaluate {e e' : Expr} {scope : ScopeId} {frame : Frame} {r : Result} {s' : State}
    (henter : enter e scope stack s = evaluate e' scope (frame :: stack) s)
    (h : Reaches (evaluate e scope stack s) (deliver r stack s')) :
    Reaches (evaluate e' scope (frame :: stack) s) (deliver r stack s') := by
  intro hwf
  have hwf' : (evaluate e scope stack s).WellFormed :=
    evaluate_wellFormed hwf.heap (fun f hf => hwf.stack f (List.mem_cons_of_mem _ hf)) e hwf.control
  obtain ⟨n, hn⟩ := h hwf'
  cases n with
  | zero => cases r <;> cases hn
  | succ n =>
    refine ⟨n, ?_⟩
    rw [← hn]
    simp only [Progress.run, evaluate, run, step, henter]

/-- The moment after the arguments of a call have been evaluated. -/
def supplied (callee : Value) (done : List Value) (r : Except EvalError (List Value))
    (stack : List Frame) (s : State) : Progress :=
  match r with
  | .ok vs => apply callee (done.reverse ++ vs) stack s
  | .error x => fail x s

end Machine

/-! ## Derivations become paths -/

open Machine

mutual

/-- Whatever waits for the result, the machine finds what the rules derive for an expression. -/
theorem Evaluates.reaches : ∀ {e : Expr} {scope : ScopeId} {s s' : State} {r : Result},
    Evaluates e scope s r s' → ∀ stack : List Frame,
      Reaches (evaluate e scope stack s) (deliver r stack s')
  | _, _, _, _, _, .number, stack => reaches_of_enter rfl
  | _, _, _, _, _, .text, stack => reaches_of_enter rfl
  | _, scope, s, _, _, @Evaluates.word name _ _ v _ h, stack => by
    intro hwf
    have henter : enter (.word name) scope stack s = yield v stack s := by
      simp only [enter, Heap.lookup?_of_resolves hwf.heap.parentsOlder h]
    exact reaches_of_enter henter hwf
  | _, scope, s, _, _, @Evaluates.undefined name _ _ h, stack => by
    apply reaches_of_enter
    simp only [enter, Heap.lookup?_of_unbound h]
    rfl
  | _, scope, s, _, _, @Evaluates.misshapen form args misuse _ _ h, stack => by
    apply reaches_of_enter
    simp only [enter, SpecialForm.ofOperator?_eq_some.mpr rfl, SpecialForm.shape_eq_error_iff.mpr h]
    rfl
  | _, scope, s, s₂, r, @Evaluates.choiceYes condition yes no _ v _ _ s₁ _ hc hv h, stack => by
    have hresume : resume v (.branch yes no scope) stack s₁ = evaluate yes scope stack s₁ := by
      simp only [resume, Value.isTruthy_eq_true.mpr hv, if_true]
    calc
      Reaches (evaluate (Form.choice condition yes no).toExpr scope stack s)
        (evaluate condition scope (.branch yes no scope :: stack) s) := evaluate_reaches_begin _ _
      Reaches _ (yield v (.branch yes no scope :: stack) s₁) := hc.reaches _
      Reaches _ (evaluate yes scope stack s₁) := reaches_of_resume hresume
      Reaches _ (deliver r stack s₂) := h.reaches stack
  | _, scope, s, s₂, r, @Evaluates.choiceNo condition yes no _ _ _ s₁ _ hc h, stack => by
    calc
      Reaches (evaluate (Form.choice condition yes no).toExpr scope stack s)
        (evaluate condition scope (.branch yes no scope :: stack) s) := evaluate_reaches_begin _ _
      Reaches _ (yield (.bool false) (.branch yes no scope :: stack) s₁) := hc.reaches _
      Reaches _ (evaluate no scope stack s₁) := reaches_of_resume rfl
      Reaches _ (deliver r stack s₂) := h.reaches stack
  | _, _, _, _, _, @Evaluates.choiceError condition yes no _ _ _ _ hc, stack =>
    (evaluate_reaches_begin (.choice condition yes no) _).trans (hc.reaches _)
  | _, scope, s, s₁, _, @Evaluates.loopDone condition body _ _ _ hc, stack => by
    calc
      Reaches (evaluate (Form.loop condition body).toExpr scope stack s)
        (evaluate condition scope (.loopTest condition body scope :: stack) s) :=
          evaluate_reaches_begin _ _
      Reaches _ (yield (.bool false) (.loopTest condition body scope :: stack) s₁) := hc.reaches _
      Reaches _ (yield (.bool false) stack s₁) := reaches_of_resume rfl
  | _, scope, s, s₃, r, @Evaluates.loopNext condition body _ v w _ _ s₁ s₂ _ hc hv hb h, stack => by
    have htest : resume v (.loopTest condition body scope) stack s₁ =
        evaluate body scope (.loopBody condition body scope :: stack) s₁ := by
      simp only [resume, Value.isTruthy_eq_true.mpr hv, if_true]
    calc
      Reaches (evaluate (Form.loop condition body).toExpr scope stack s)
        (evaluate condition scope (.loopTest condition body scope :: stack) s) :=
          evaluate_reaches_begin _ _
      Reaches _ (yield v (.loopTest condition body scope :: stack) s₁) := hc.reaches _
      Reaches _ (evaluate body scope (.loopBody condition body scope :: stack) s₁) :=
        reaches_of_resume htest
      Reaches _ (yield w (.loopBody condition body scope :: stack) s₂) := hb.reaches _
      Reaches _ (evaluate condition scope (.loopTest condition body scope :: stack) s₂) :=
        reaches_of_resume rfl
      -- The machine comes round to the condition, while the rule begins the whole loop anew.
      Reaches _ (deliver r stack s₃) := reaches_of_evaluate rfl (h.reaches stack)
  | _, _, _, _, _, @Evaluates.loopConditionError condition body _ _ _ _ hc, stack =>
    (evaluate_reaches_begin (.loop condition body) _).trans (hc.reaches _)
  | _, scope, s, s₂, _, @Evaluates.loopBodyError condition body _ v x _ s₁ _ hc hv hb, stack => by
    have htest : resume v (.loopTest condition body scope) stack s₁ =
        evaluate body scope (.loopBody condition body scope :: stack) s₁ := by
      simp only [resume, Value.isTruthy_eq_true.mpr hv, if_true]
    calc
      Reaches (evaluate (Form.loop condition body).toExpr scope stack s)
        (evaluate condition scope (.loopTest condition body scope :: stack) s) :=
          evaluate_reaches_begin _ _
      Reaches _ (yield v (.loopTest condition body scope :: stack) s₁) := hc.reaches _
      Reaches _ (evaluate body scope (.loopBody condition body scope :: stack) s₁) :=
        reaches_of_resume htest
      Reaches _ (fail x s₂) := hb.reaches _
  | _, _, _, _, _, .sequenceNil, stack => evaluate_reaches_begin (.sequence []) _
  | _, scope, s, s₁, r, @Evaluates.sequenceLast e _ _ _ _ h, stack => by
    have hlast : Reaches (deliver r (.sequence [] scope :: stack) s₁) (deliver r stack s₁) := by
      cases r with
      | ok v => exact reaches_of_resume rfl
      | error x => exact .refl _
    calc
      Reaches (evaluate (Form.sequence [e]).toExpr scope stack s)
        (evaluate e scope (.sequence [] scope :: stack) s) := evaluate_reaches_begin _ _
      Reaches _ (deliver r (.sequence [] scope :: stack) s₁) := h.reaches _
      Reaches _ (deliver r stack s₁) := hlast
  | _, scope, s, s₂, r, @Evaluates.sequenceNext e e' rest _ v _ _ s₁ _ he h, stack => by
    calc
      Reaches (evaluate (Form.sequence (e :: e' :: rest)).toExpr scope stack s)
        (evaluate e scope (.sequence (e' :: rest) scope :: stack) s) := evaluate_reaches_begin _ _
      Reaches _ (yield v (.sequence (e' :: rest) scope :: stack) s₁) := he.reaches _
      Reaches _ (evaluate e' scope (.sequence rest scope :: stack) s₁) := reaches_of_resume rfl
      Reaches _ (deliver r stack s₂) := reaches_of_evaluate rfl (h.reaches stack)
  | _, _, _, _, _, @Evaluates.sequenceError e e' rest _ _ _ _ he, stack =>
    (evaluate_reaches_begin (.sequence (e :: e' :: rest)) _).trans (he.reaches _)
  | _, scope, s, _, _, @Evaluates.define name e _ v _ s₁ he, stack => by
    calc
      Reaches (evaluate (Form.define name e).toExpr scope stack s)
        (evaluate e scope (.define name scope :: stack) s) := evaluate_reaches_begin _ _
      Reaches _ (yield v (.define name scope :: stack) s₁) := he.reaches _
      Reaches _ (yield v stack (s₁.define scope name v)) := reaches_of_resume rfl
  | _, _, _, _, _, @Evaluates.defineError name e _ _ _ _ he, stack =>
    (evaluate_reaches_begin (.define name e) _).trans (he.reaches _)
  | _, scope, s, _, _, @Evaluates.assign name e _ owner v _ _ s₁ he ho, stack => by
    have hassign : Reaches (yield v (.assign name scope :: stack) s₁)
        (yield v stack (s₁.define owner name v)) := by
      intro hwf
      have hresume : resume v (.assign name scope) stack s₁ =
          yield v stack (s₁.define owner name v) := by
        simp only [resume, Heap.owner?_of_resolves hwf.heap.parentsOlder ho]
      exact reaches_of_resume hresume hwf
    calc
      Reaches (evaluate (Form.assign name e).toExpr scope stack s)
        (evaluate e scope (.assign name scope :: stack) s) := evaluate_reaches_begin _ _
      Reaches _ (yield v (.assign name scope :: stack) s₁) := he.reaches _
      Reaches _ (yield v stack (s₁.define owner name v)) := hassign
  | _, scope, s, s₁, _, @Evaluates.assignUnknown name e _ v _ _ he hu, stack => by
    have hresume : resume v (.assign name scope) stack s₁ = fail (.unknownVariable name) s₁ := by
      simp only [resume, Heap.owner?_of_unbound hu]
    calc
      Reaches (evaluate (Form.assign name e).toExpr scope stack s)
        (evaluate e scope (.assign name scope :: stack) s) := evaluate_reaches_begin _ _
      Reaches _ (yield v (.assign name scope :: stack) s₁) := he.reaches _
      Reaches _ (fail (.unknownVariable name) s₁) := reaches_of_resume hresume
  | _, _, _, _, _, @Evaluates.assignError name e _ _ _ _ he, stack =>
    (evaluate_reaches_begin (.assign name e) _).trans (he.reaches _)
  | _, _, _, _, _, @Evaluates.function params body _ _, stack =>
    evaluate_reaches_begin (.function params body) _
  | _, scope, s, s₃, r, @Evaluates.call f args _ callee vs _ _ s₁ s₂ _ hf ho hc ha h, stack => by
    calc
      Reaches (evaluate (.apply f args) scope stack s)
        (evaluate f scope (.operator args scope :: stack) s) := evaluate_reaches_operator hf _ _
      Reaches _ (yield callee (.operator args scope :: stack) s₁) := ho.reaches _
      Reaches _ (supply callee [] args scope stack s₁) := reaches_of_resume (resume_operator hc ..)
      Reaches _ (apply callee vs stack s₂) := ha.reaches callee [] stack
      Reaches _ (deliver r stack s₃) := h.reaches stack
  | _, _, _, _, _, .callOperatorError hf ho, stack =>
    (evaluate_reaches_operator hf _ _).trans (ho.reaches _)
  | _, scope, s, s₁, _, @Evaluates.callNotCallable f args _ v _ _ hf ho hv, stack => by
    have hresume : resume v (.operator args scope) stack s₁ = fail (.notCallable v.describe) s₁ := by
      simp [resume, hv]
    calc
      Reaches (evaluate (.apply f args) scope stack s)
        (evaluate f scope (.operator args scope :: stack) s) := evaluate_reaches_operator hf _ _
      Reaches _ (yield v (.operator args scope :: stack) s₁) := ho.reaches _
      Reaches _ (fail (.notCallable v.describe) s₁) := reaches_of_resume hresume
  | _, scope, s, s₂, _, @Evaluates.callArgumentError f args _ callee x _ s₁ _ hf ho hc ha, stack => by
    calc
      Reaches (evaluate (.apply f args) scope stack s)
        (evaluate f scope (.operator args scope :: stack) s) := evaluate_reaches_operator hf _ _
      Reaches _ (yield callee (.operator args scope :: stack) s₁) := ho.reaches _
      Reaches _ (supply callee [] args scope stack s₁) := reaches_of_resume (resume_operator hc ..)
      Reaches _ (fail x s₂) := ha.reaches callee [] stack

/-- The machine evaluates the arguments of a call as the rules do, and goes on to apply it. -/
theorem EvaluatesAll.reaches : ∀ {es : List Expr} {scope : ScopeId} {s s' : State}
    {r : Except EvalError (List Value)}, EvaluatesAll es scope s r s' →
      ∀ (callee : Value) (done : List Value) (stack : List Frame),
        Reaches (supply callee done es scope stack s) (supplied callee done r stack s')
  | _, _, _, _, _, .nil, callee, done, stack => by
    simp only [supply, supplied, List.append_nil]
    exact .refl _
  | _, scope, s, s₂, _, @EvaluatesAll.cons e es _ v vs _ s₁ _ he h, callee, done, stack => by
    have happ : (v :: done).reverse ++ vs = done.reverse ++ v :: vs := by simp
    calc
      Reaches (supply callee done (e :: es) scope stack s)
        (yield v (.argument callee done es scope :: stack) s₁) := he.reaches _
      Reaches _ (supply callee (v :: done) es scope stack s₁) :=
        reaches_of_resume (resume_argument ..)
      Reaches _ (apply callee ((v :: done).reverse ++ vs) stack s₂) := h.reaches _ _ _
      Reaches _ (apply callee (done.reverse ++ v :: vs) stack s₂) := happ ▸ .refl _
  | _, _, _, _, _, .head he, callee, done, stack => he.reaches _
  | _, scope, s, s₂, _, @EvaluatesAll.tail e es _ v x _ s₁ _ he h, callee, done, stack => by
    calc
      Reaches (supply callee done (e :: es) scope stack s)
        (yield v (.argument callee done es scope :: stack) s₁) := he.reaches _
      Reaches _ (supply callee (v :: done) es scope stack s₁) :=
        reaches_of_resume (resume_argument ..)
      Reaches _ (fail x s₂) := h.reaches _ _ _

/-- The machine applies values as the rules do. -/
theorem Applies.reaches : ∀ {callee : Value} {args : List Value} {s s' : State} {r : Result},
    Applies callee args s r s' → ∀ stack : List Frame,
      Reaches (apply callee args stack s) (deliver r stack s')
  | _, _, s, s₁, r, @Applies.function tag c args _ _ _ hn h, stack => by
    have happly : apply (.function tag c) args stack s = evaluate c.body s.heap.size stack
        { s with heap := s.heap.push (.ofList (c.params.zip args)) (some c.scope) } := by
      simp only [apply, hn, if_true]
      rfl
    exact happly ▸ h.reaches stack
  | _, _, s, _, _, @Applies.functionArity tag c args _ hn, stack => by
    simp only [apply, hn, if_false]
    exact .refl _
  | _, _, s, s₁, r, @Applies.native b args _ _ _ h, stack => by
    simp only [apply, Builtin.call_of_native h]
    cases r with
    | ok v => exact .refl _
    | error x => exact .refl _
  | v, _, _, _, _, .notCallable hv, stack => by
    cases v with
    | function | native => cases hv
    | _ => exact .refl _

end

/-! ## The agreement -/

/-- When nothing waits for it any more, a result is final. -/
theorem deliver_nil_reaches (r : Result) (s : State) : Reaches (deliver r [] s) (.finished r s) := by
  cases r with
  | ok v => exact .step ⟨.yield v, [], s⟩
  | error x => exact .refl _

theorem run_finished_iff {e : Expr} {scope : ScopeId} {s s' : State} {r : Result}
    (hs : s.heap.WellFormed) (hscope : scope < s.heap.size) :
    (∃ n, run n ⟨.evaluate e scope, [], s⟩ = .finished r s') ↔ Evaluates e scope s r s' := by
  have hwf : (evaluate e scope [] s).WellFormed := evaluate_wellFormed hs (by simp) e hscope
  constructor
  · rintro ⟨n, hn⟩
    obtain ⟨r₁, s₁, he, rfl, rfl⟩ := run_sound hwf hn
    exact he
  · intro he
    exact (he.reaches []).trans (deliver_nil_reaches r s') hwf

theorem Progress.outcome?_eq_some {p : Progress} {r : Result} {s : State} :
    p.outcome? = some (r.mapError .evaluation, s) ↔ p = .finished r s := by
  cases p with
  | running c => simp [outcome?]
  | finished r' s' => cases r <;> cases r' <;> simp [outcome?, Except.mapError]

/-- In a well-formed state and a scope that exists, an evaluation ends with a result in a state
exactly if the rules of the language derive this result and this state. -/
theorem evaluate_iff_evaluates {e : Expr} {scope : ScopeId} {s s' : State} {r : Result}
    (hs : s.heap.WellFormed) (hscope : scope < s.heap.size) :
    (∃ steps, Program.evaluate steps e scope s = some (r.mapError .evaluation, s')) ↔
      Evaluates e scope s r s' := by
  rw [← run_finished_iff hs hscope]
  exact exists_congr fun n => Progress.outcome?_eq_some

/-- How an evaluation ends that has been seen to end with a truth value and a text. -/
theorem Program.exists_of_test {steps : Nat} {e : Expr} {scope : ScopeId} {s : State} {b : Bool}
    {text : String} (h : (evaluate steps e scope s).any (fun o =>
      o.1.toOption.any (·.strictEq (.bool b)) && o.2.sink.held == text) = true) :
    ∃ s', evaluate steps e scope s = some (.ok (.bool b), s') ∧ s'.sink.held = text := by
  obtain ⟨⟨r, s'⟩, hend, htest⟩ := (Option.any_eq_true _ _).mp h
  rw [Bool.and_eq_true, beq_iff_eq] at htest
  obtain ⟨hresult, htext⟩ := htest
  cases r with
  | error x => cases hresult
  | ok v =>
    cases v with
    | bool b' =>
      obtain rfl : b' = b := beq_iff_eq.mp hresult
      exact ⟨s', hend, htext⟩
    | number | text | array | function | native => cases hresult

/-- The agreement at `do(define(x, 2), set(x, +(x, 1)), fun(y, print(==(+(x, y), 7)))(4))`, which assigns
a variable, reads it and a parameter inside of a call, and prints what a comparison comes to. -/
theorem evaluates_assign_then_call :
    ∃ (s : State) (e : Expr), s = (State.initial (.buffer "")).pushProgram.2 ∧
      e = .apply (.word "do")
        [.apply (.word "define") [.word "x", .number (.ofNat 2)],
         .apply (.word "set") [.word "x", .apply (.word "+") [.word "x", .number (.ofNat 1)]],
         .apply (.apply (.word "fun") [.word "y", .apply (.word "print") [.apply (.word "==")
           [.apply (.word "+") [.word "x", .word "y"], .number (.ofNat 7)]]]) [.number (.ofNat 4)]] ∧
      s.heap.WellFormed ∧ 1 < s.heap.size ∧
      ∃ s', Evaluates e 1 s (.ok (.bool true)) s' ∧ s'.sink.held = "true\n" := by
  have hs := State.wellFormed_pushProgram (s := State.initial (.buffer "")) Heap.wellFormed_empty
  have hscope := State.pushProgram_lt (State.initial (.buffer ""))
  refine ⟨_, _, rfl, rfl, hs, hscope, ?_⟩
  refine Exists.imp (fun s' (h : Program.evaluate 60 _ _ _ = some (.ok (.bool true), s') ∧ _) =>
    ⟨(evaluate_iff_evaluates hs hscope).mp ⟨60, h.1⟩, h.2⟩) ?_
  exact Program.exists_of_test (by decide +kernel)

end Egg
