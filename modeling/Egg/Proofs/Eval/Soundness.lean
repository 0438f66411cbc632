import Egg.Proofs.Eval.Forms
import Egg.Proofs.Eval.WellFormed

/-!
# Whatever the machine finds has a derivation

A moment of an evaluation is given a meaning in terms of the rules. The expression under evaluation
has a result by the rules; each frame, given the value that it waits for, stands for the rest of the
rule that pushed it (`Continues`); and an error passes by all frames (`Resumes`). A step never adds
to this meaning: what the next moment derives, the present one derives too (`step_sound`). So a run
that ends, seen from its last moment backwards, has built a derivation (`run_sound`).
-/

namespace Egg

theorem Value.isTruthy_eq_true {v : Value} : v.isTruthy = true ↔ v ≠ .bool false := by
  cases v with
  | bool b => cases b <;> simp [isTruthy]
  | _ => simp [isTruthy]

theorem Value.isTruthy_eq_false {v : Value} : v.isTruthy = false ↔ v = .bool false := by
  cases v with
  | bool b => cases b <;> simp [isTruthy]
  | _ => simp [isTruthy]

/-- What becomes of a result: an error is final, and on a value `next` goes on. -/
def AndThen {α : Type} (r : Except EvalError α) (s : State)
    (next : α → State → Result → State → Prop) (r' : Result) (s' : State) : Prop :=
  match r with
  | .ok a => next a s r' s'
  | .error x => r' = .error x ∧ s' = s

/-- The evaluation of arguments in `scope`, followed by the application of `callee` to those in
`done`, the last one first, and the new ones. -/
def AppliesTo (callee : Value) (done : List Value) (args : List Expr) (scope : ScopeId) (s : State)
    (r : Result) (s' : State) : Prop :=
  ∃ ra sa, EvaluatesAll args scope s ra sa ∧
    AndThen ra sa (fun vs => Applies callee (done.reverse ++ vs)) r s'

/-- What a frame makes of the value that it waits for. -/
def Frame.Continues : Frame → Value → State → Result → State → Prop
  | .branch yes no scope, v, s, r, s' => Evaluates (if v.isTruthy then yes else no) scope s r s'
  | .loopTest condition body scope, v, s, r, s' =>
    if v.isTruthy then
      ∃ rb sb, Evaluates body scope s rb sb ∧
        AndThen rb sb (fun _ => Evaluates (Form.loop condition body).toExpr scope) r s'
    else r = .ok (.bool false) ∧ s' = s
  | .loopBody condition body scope, _, s, r, s' =>
    Evaluates (Form.loop condition body).toExpr scope s r s'
  | .sequence [] _, v, s, r, s' => r = .ok v ∧ s' = s
  | .sequence (e :: rest) scope, _, s, r, s' =>
    Evaluates (Form.sequence (e :: rest)).toExpr scope s r s'
  | .define name scope, v, s, r, s' => r = .ok v ∧ s' = s.define scope name v
  | .assign name scope, v, s, r, s' =>
    (∃ owner old, s.heap.Resolves name scope owner old ∧ r = .ok v ∧ s' = s.define owner name v) ∨
      s.heap.Unbound name scope ∧ r = .error (.unknownVariable name) ∧ s' = s
  | .operator args scope, v, s, r, s' =>
    if v.isCallable then AppliesTo v [] args scope s r s'
    else r = .error (.notCallable v.describe) ∧ s' = s
  | .argument callee done rest scope, v, s, r, s' => AppliesTo callee (v :: done) rest scope s r s'

/-- What a stack of frames makes of a result. -/
def Resumes : List Frame → Result → State → Result → State → Prop
  | [], r, s, r', s' => r' = r ∧ s' = s
  | frame :: stack, r, s, r', s' =>
    ∃ r₁ s₁, AndThen r s frame.Continues r₁ s₁ ∧ Resumes stack r₁ s₁ r' s'

/-- What a moment of an evaluation comes to by the rules. -/
def Config.Derives : Config → Result → State → Prop
  | ⟨.evaluate e scope, stack, s⟩, r, s' =>
    ∃ r₁ s₁, Evaluates e scope s r₁ s₁ ∧ Resumes stack r₁ s₁ r s'
  | ⟨.yield v, stack, s⟩, r, s' => Resumes stack (.ok v) s r s'

/-- What an evaluation that goes on or has ended comes to by the rules. -/
def Progress.Derives : Progress → Result → State → Prop
  | .running c, r, s' => c.Derives r s'
  | .finished result s, r, s' => r = result ∧ s' = s

/-- No frame stops an error. -/
theorem resumes_error (stack : List Frame) (x : EvalError) (s : State) :
    Resumes stack (.error x) s (.error x) s := by
  induction stack with
  | nil => exact ⟨rfl, rfl⟩
  | cons frame stack ih => exact ⟨.error x, s, ⟨rfl, rfl⟩, ih⟩

/-! ## Putting rules together

Each of these lemmas collects the rules of one construct: its first part has a result, and the frame
that waited for it makes the rest of it. -/

namespace Evaluates

variable {scope : ScopeId} {s s₀ s' : State}

theorem choice_of_continues {condition yes no : Expr} {r₀ r : Result}
    (hc : Evaluates condition scope s r₀ s₀)
    (h : AndThen r₀ s₀ (Frame.branch yes no scope).Continues r s') :
    Evaluates (Form.choice condition yes no).toExpr scope s r s' := by
  cases r₀ with
  | ok v =>
    change Evaluates (if v.isTruthy then yes else no) scope s₀ r s' at h
    cases hv : v.isTruthy with
    | true =>
      rw [hv] at h
      exact .choiceYes hc (Value.isTruthy_eq_true.mp hv) h
    | false =>
      rw [hv] at h
      rw [Value.isTruthy_eq_false.mp hv] at hc
      exact .choiceNo hc h
  | error x =>
    obtain ⟨rfl, rfl⟩ := h
    exact .choiceError hc

theorem loop_of_continues {condition body : Expr} {r₀ r : Result}
    (hc : Evaluates condition scope s r₀ s₀)
    (h : AndThen r₀ s₀ (Frame.loopTest condition body scope).Continues r s') :
    Evaluates (Form.loop condition body).toExpr scope s r s' := by
  cases r₀ with
  | ok v =>
    simp only [AndThen, Frame.Continues] at h
    split at h
    · next hv =>
      obtain ⟨rb, sb, hb, h⟩ := h
      have hne := Value.isTruthy_eq_true.mp hv
      cases rb with
      | ok w => exact .loopNext hc hne hb h
      | error x =>
        obtain ⟨rfl, rfl⟩ := h
        exact .loopBodyError hc hne hb
    · next hv =>
      obtain ⟨rfl, rfl⟩ := h
      rw [Value.isTruthy_eq_false.mp (Bool.eq_false_iff.mpr hv)] at hc
      exact .loopDone hc
  | error x =>
    obtain ⟨rfl, rfl⟩ := h
    exact .loopConditionError hc

theorem sequence_of_continues {e : Expr} {rest : List Expr} {r₀ r : Result}
    (he : Evaluates e scope s r₀ s₀)
    (h : AndThen r₀ s₀ (Frame.sequence rest scope).Continues r s') :
    Evaluates (Form.sequence (e :: rest)).toExpr scope s r s' := by
  cases rest with
  | nil =>
    have heq : r = r₀ ∧ s' = s₀ := by cases r₀ <;> exact h
    obtain ⟨rfl, rfl⟩ := heq
    exact .sequenceLast he
  | cons e' rest =>
    cases r₀ with
    | ok v => exact .sequenceNext he h
    | error x =>
      obtain ⟨rfl, rfl⟩ := h
      exact .sequenceError he

theorem define_of_continues {name : Name} {e : Expr} {r₀ r : Result}
    (he : Evaluates e scope s r₀ s₀) (h : AndThen r₀ s₀ (Frame.define name scope).Continues r s') :
    Evaluates (Form.define name e).toExpr scope s r s' := by
  cases r₀ with
  | ok v =>
    obtain ⟨rfl, rfl⟩ := h
    exact .define he
  | error x =>
    obtain ⟨rfl, rfl⟩ := h
    exact .defineError he

theorem assign_of_continues {name : Name} {e : Expr} {r₀ r : Result}
    (he : Evaluates e scope s r₀ s₀) (h : AndThen r₀ s₀ (Frame.assign name scope).Continues r s') :
    Evaluates (Form.assign name e).toExpr scope s r s' := by
  cases r₀ with
  | ok v =>
    rcases h with ⟨owner, old, ho, rfl, rfl⟩ | ⟨hu, rfl, rfl⟩
    · exact .assign he ho
    · exact .assignUnknown he hu
  | error x =>
    obtain ⟨rfl, rfl⟩ := h
    exact .assignError he

theorem call_of_continues {f : Expr} (hf : f.IsOrdinary) {args : List Expr} {r₀ r : Result}
    (ho : Evaluates f scope s r₀ s₀) (h : AndThen r₀ s₀ (Frame.operator args scope).Continues r s') :
    Evaluates (.apply f args) scope s r s' := by
  cases r₀ with
  | ok v =>
    simp only [AndThen, Frame.Continues] at h
    split at h
    · next hv =>
      obtain ⟨ra, sa, ha, h⟩ := h
      cases ra with
      | ok vs => exact .call hf ho hv ha h
      | error x =>
        obtain ⟨rfl, rfl⟩ := h
        exact .callArgumentError hf ho hv ha
    · next hv =>
      obtain ⟨rfl, rfl⟩ := h
      exact .callNotCallable hf ho (Bool.eq_false_iff.mpr hv)
  | error x =>
    obtain ⟨rfl, rfl⟩ := h
    exact .callOperatorError hf ho

end Evaluates

/-- One more argument in front of others. -/
theorem AppliesTo.cons {callee : Value} {done : List Value} {e : Expr} {rest : List Expr}
    {scope : ScopeId} {s s₀ s' : State} {r₀ r : Result} (he : Evaluates e scope s r₀ s₀)
    (h : AndThen r₀ s₀ (Frame.argument callee done rest scope).Continues r s') :
    AppliesTo callee done (e :: rest) scope s r s' := by
  cases r₀ with
  | ok v =>
    obtain ⟨ra, sa, ha, h⟩ := h
    cases ra with
    | ok vs =>
      refine ⟨.ok (v :: vs), sa, .cons he ha, ?_⟩
      simpa [AndThen] using h
    | error x => exact ⟨.error x, sa, .tail he ha, h⟩
  | error x => exact ⟨.error x, s₀, .head he, h⟩

/-! ## Steps -/

namespace Machine

/-- What the machine does when the operator of a call and the arguments in `done`, the last one
first, have been evaluated. -/
def supply (callee : Value) (done : List Value) (rest : List Expr) (scope : ScopeId)
    (stack : List Frame) (s : State) : Progress :=
  match rest with
  | [] => apply callee done.reverse stack s
  | e :: rest => evaluate e scope (.argument callee done rest scope :: stack) s

theorem resume_operator {v : Value} (hv : v.isCallable = true) (args : List Expr) (scope : ScopeId)
    (stack : List Frame) (s : State) :
    resume v (.operator args scope) stack s = supply v [] args scope stack s := by
  cases args <;> simp [resume, supply, hv]

theorem resume_argument (v callee : Value) (done : List Value) (rest : List Expr) (scope : ScopeId)
    (stack : List Frame) (s : State) :
    resume v (.argument callee done rest scope) stack s =
      supply callee (v :: done) rest scope stack s := by
  cases rest <;> rfl

variable {stack : List Frame} {s s' : State} {r : Result}

theorem yield_sound {v : Value} (h : (yield v stack s).Derives r s') :
    Resumes stack (.ok v) s r s' := h

theorem fail_sound {x : EvalError} (h : (fail x s).Derives r s') :
    Resumes stack (.error x) s r s' := by
  obtain ⟨rfl, rfl⟩ := h
  exact resumes_error stack x s'

/-- An expression and the frame that waits for it, seen as one. -/
theorem evaluate_cons_sound {e : Expr} {scope : ScopeId} {frame : Frame}
    (h : (evaluate e scope (frame :: stack) s).Derives r s') :
    ∃ r₀ s₀ r₁ s₁, Evaluates e scope s r₀ s₀ ∧ AndThen r₀ s₀ frame.Continues r₁ s₁ ∧
      Resumes stack r₁ s₁ r s' := by
  obtain ⟨r₀, s₀, he, r₁, s₁, hf, hst⟩ := h
  exact ⟨r₀, s₀, r₁, s₁, he, hf, hst⟩

theorem apply_sound {callee : Value} {args : List Value}
    (h : (apply callee args stack s).Derives r s') :
    ∃ r₁ s₁, Applies callee args s r₁ s₁ ∧ Resumes stack r₁ s₁ r s' := by
  cases callee with
  | function tag c =>
    simp only [apply] at h
    split at h
    · next hn =>
      obtain ⟨r₁, s₁, hb, hst⟩ := h
      exact ⟨r₁, s₁, .function hn hb, hst⟩
    · next hn => exact ⟨_, _, .functionArity hn, fail_sound h⟩
  | native b =>
    have hcall := b.native_call args s
    simp only [apply] at h
    cases hc : b.call args s with
    | mk r₁ s₁ =>
      rw [hc] at h hcall
      refine ⟨r₁, s₁, .native hcall, ?_⟩
      cases r₁ with
      | ok v => exact yield_sound h
      | error x => exact fail_sound h
  | _ => exact ⟨_, _, .notCallable rfl, fail_sound h⟩

theorem supply_sound {callee : Value} {done : List Value} {rest : List Expr} {scope : ScopeId}
    (h : (supply callee done rest scope stack s).Derives r s') :
    ∃ r₁ s₁, AppliesTo callee done rest scope s r₁ s₁ ∧ Resumes stack r₁ s₁ r s' := by
  cases rest with
  | nil =>
    obtain ⟨r₁, s₁, ha, hst⟩ := apply_sound h
    rw [← List.append_nil done.reverse] at ha
    exact ⟨r₁, s₁, ⟨.ok [], s, .nil, ha⟩, hst⟩
  | cons e rest =>
    obtain ⟨r₀, s₀, r₁, s₁, he, hf, hst⟩ := evaluate_cons_sound h
    exact ⟨r₁, s₁, .cons he hf, hst⟩

theorem begin_sound {form : Form} {scope : ScopeId} (h : (begin form scope stack s).Derives r s') :
    ∃ r₁ s₁, Evaluates form.toExpr scope s r₁ s₁ ∧ Resumes stack r₁ s₁ r s' := by
  cases form with
  | choice condition yes no =>
    obtain ⟨r₀, s₀, r₁, s₁, hc, hf, hst⟩ := evaluate_cons_sound h
    exact ⟨r₁, s₁, .choice_of_continues hc hf, hst⟩
  | loop condition body =>
    obtain ⟨r₀, s₀, r₁, s₁, hc, hf, hst⟩ := evaluate_cons_sound h
    exact ⟨r₁, s₁, .loop_of_continues hc hf, hst⟩
  | sequence items =>
    cases items with
    | nil => exact ⟨_, _, .sequenceNil, yield_sound h⟩
    | cons e rest =>
      obtain ⟨r₀, s₀, r₁, s₁, he, hf, hst⟩ := evaluate_cons_sound h
      exact ⟨r₁, s₁, .sequence_of_continues he hf, hst⟩
  | define name e =>
    obtain ⟨r₀, s₀, r₁, s₁, he, hf, hst⟩ := evaluate_cons_sound h
    exact ⟨r₁, s₁, .define_of_continues he hf, hst⟩
  | assign name e =>
    obtain ⟨r₀, s₀, r₁, s₁, he, hf, hst⟩ := evaluate_cons_sound h
    exact ⟨r₁, s₁, .assign_of_continues he hf, hst⟩
  | function params body => exact ⟨_, _, .function, yield_sound h⟩

theorem enter_sound (hs : s.heap.WellFormed) {e : Expr} {scope : ScopeId}
    (hscope : scope < s.heap.size) (h : (enter e scope stack s).Derives r s') :
    ∃ r₁ s₁, Evaluates e scope s r₁ s₁ ∧ Resumes stack r₁ s₁ r s' := by
  cases e with
  | number n => exact ⟨_, _, .number, yield_sound h⟩
  | text t => exact ⟨_, _, .text, yield_sound h⟩
  | word name =>
    simp only [enter] at h
    split at h
    · next v hv =>
      obtain ⟨owner, hr⟩ := Heap.resolves_of_lookup? hs.parentsOlder hscope hv
      exact ⟨_, _, .word hr, yield_sound h⟩
    · next hn =>
      have hu := Heap.unbound_of_lookup? hs.parentsOlder hscope hn
      exact ⟨_, _, .undefined hu, fail_sound h⟩
  | apply f args =>
    simp only [enter] at h
    split at h
    · next form hform =>
      obtain rfl := SpecialForm.ofOperator?_eq_some.mp hform
      split at h
      · next shaped hshape =>
        obtain ⟨rfl, rfl⟩ := SpecialForm.shape_eq_ok_iff.mp hshape
        exact begin_sound h
      · next misuse hshape =>
        exact ⟨_, _, .misshapen (SpecialForm.shape_eq_error_iff.mp hshape), fail_sound h⟩
    · next hform =>
      have hf := SpecialForm.ofOperator?_eq_none.mp hform
      obtain ⟨r₀, s₀, r₁, s₁, ho, hframe, hst⟩ := evaluate_cons_sound h
      exact ⟨r₁, s₁, .call_of_continues hf ho hframe, hst⟩

theorem resume_sound (hs : s.heap.WellFormed) {v : Value} {frame : Frame}
    (hf : frame.Within s.heap.size) (h : (resume v frame stack s).Derives r s') :
    ∃ r₁ s₁, frame.Continues v s r₁ s₁ ∧ Resumes stack r₁ s₁ r s' := by
  cases frame with
  | branch yes no scope => exact h
  | loopTest condition body scope =>
    simp only [resume] at h
    simp only [Frame.Continues]
    split at h
    · next hv =>
      obtain ⟨r₀, s₀, r₁, s₁, hb, hframe, hst⟩ := evaluate_cons_sound h
      simp only [if_pos hv]
      exact ⟨r₁, s₁, ⟨r₀, s₀, hb, hframe⟩, hst⟩
    · next hv =>
      simp only [if_neg hv]
      exact ⟨_, _, ⟨rfl, rfl⟩, yield_sound h⟩
  | loopBody condition body scope =>
    obtain ⟨r₀, s₀, r₁, s₁, hc, hframe, hst⟩ := evaluate_cons_sound h
    exact ⟨r₁, s₁, .loop_of_continues hc hframe, hst⟩
  | sequence rest scope =>
    cases rest with
    | nil => exact ⟨_, _, ⟨rfl, rfl⟩, yield_sound h⟩
    | cons e rest =>
      obtain ⟨r₀, s₀, r₁, s₁, he, hframe, hst⟩ := evaluate_cons_sound h
      exact ⟨r₁, s₁, .sequence_of_continues he hframe, hst⟩
  | define name scope => exact ⟨_, _, ⟨rfl, rfl⟩, yield_sound h⟩
  | assign name scope =>
    simp only [resume] at h
    split at h
    · next owner ho =>
      obtain ⟨old, hr⟩ := Heap.resolves_of_owner? hs.parentsOlder hf ho
      exact ⟨_, _, .inl ⟨owner, old, hr, rfl, rfl⟩, yield_sound h⟩
    · next ho =>
      have hu := Heap.unbound_of_owner? hs.parentsOlder hf ho
      exact ⟨_, _, .inr ⟨hu, rfl, rfl⟩, fail_sound h⟩
  | operator args scope =>
    simp only [Frame.Continues]
    cases hv : v.isCallable with
    | true =>
      rw [resume_operator hv] at h
      exact supply_sound h
    | false =>
      simp only [resume, hv] at h
      exact ⟨_, _, ⟨rfl, rfl⟩, fail_sound h⟩
  | argument callee done rest scope =>
    rw [resume_argument] at h
    exact supply_sound h

/-- What the next moment derives, the present one derives too. -/
theorem step_sound {c : Config} (hc : c.WellFormed) (h : (step c).Derives r s') :
    c.Derives r s' := by
  obtain ⟨control, stack, s⟩ := c
  obtain ⟨hs, hcontrol, hst⟩ := hc
  cases control with
  | evaluate e scope => exact enter_sound hs hcontrol h
  | yield v =>
    cases stack with
    | nil => exact h
    | cons frame stack => exact resume_sound hs (hst frame List.mem_cons_self) h

/-- A run that ends has a derivation. -/
theorem run_sound {n : Nat} {c : Config} (hc : c.WellFormed) (h : run n c = .finished r s') :
    c.Derives r s' := by
  -- The derivation grows from the last step backwards, so the first step is the last to be added.
  induction n generalizing c with
  | zero => cases h
  | succ n ih =>
    have hstep := step_wellFormed hc
    apply step_sound hc
    rw [run] at h
    split at h
    · next c' hc' =>
      rw [hc'] at hstep ⊢
      exact ih hstep h
    · next r₁ s₁ hf =>
      cases h
      rw [hf]
      exact ⟨rfl, rfl⟩

end Machine

end Egg
