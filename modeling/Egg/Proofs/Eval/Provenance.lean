import Egg.Proofs.Eval.Assignment
import Egg.Proofs.Eval.Failure
import Mathlib

/-!
# Where values come from

At each moment of an evaluation, values are held in three places: bound in the scopes, in the frames
that wait for arguments, and at hand as the value that has just been found. A step takes values from
one place to another and never makes a copy of an array or a function under another mark. What it
leads to was there before, has no parts, or is an array or a function that this very step makes,
with the next unused mark (`Machine.step_origin`).
-/

namespace Egg

open Machine

/-! ## Values at a moment -/

def Control.values : Control → List Value
  | .evaluate _ _ => []
  | .yield v => [v]

/-- The values that a frame keeps for later. -/
def Frame.values : Frame → List Value
  | .argument callee done _ _ => callee :: done
  | _ => []

namespace Progress

/-- The values outside of the scopes. -/
def values : Progress → List Value
  | running c => c.control.values ++ c.stack.flatMap Frame.values
  | finished (.ok v) _ => [v]
  | finished (.error _) _ => []

def Keeps (p : Progress) (v : Value) : Prop := p.state.heap.Binds v ∨ v ∈ p.values

/-- The value is held in some place, by itself or inside of an array. -/
def Occurs (p : Progress) (v : Value) : Prop := ∃ w, p.Keeps w ∧ v.Inside w

end Progress

def Config.Occurs (c : Config) (v : Value) : Prop := (Progress.running c).Occurs v

theorem Value.Inside.trans {u v w : Value} (huv : u.Inside v) (hvw : v.Inside w) : u.Inside w := by
  induction hvw with
  | self => exact huv
  | item hv _ ih => exact .item hv ih

theorem Value.IsPlain.eq_of_inside {v w : Value} (hw : w.IsPlain) (h : v.Inside w) : v = w := by
  cases h with
  | self => rfl
  | item => cases hw

/-- An occurrence of a value is one of all that is inside of it. -/
theorem Progress.Occurs.inside {p : Progress} {v w : Value} (hw : p.Occurs w) (h : v.Inside w) :
    p.Occurs v := by
  obtain ⟨u, hu, hin⟩ := hw
  exact ⟨u, hu, h.trans hin⟩

/-! ## Making arrays and functions -/

/-- The value that a task makes, if `tag` is the next unused mark: an application of the native
function `array`, and an evaluation of `fun`. -/
inductive Task.Creates (tag : Tag) : Task → Value → Prop where
  | array {items : List Value} : Creates tag (.apply (.native .array) items) (.array tag items)
  | function {params : List Name} {body : Expr} {scope : ScopeId} :
      Creates tag (.evaluate (Form.function params body).toExpr scope)
        (.function tag ⟨params, body, scope⟩)

/-- The next step makes the value. -/
def Config.Creates (c : Config) (v : Value) : Prop :=
  ∃ t waiting, c.task? = some (t, waiting) ∧ t.Creates c.state.nextTag v

/-- The mark of an array or a function. -/
def Value.mark? : Value → Option Tag
  | .array tag _ => some tag
  | .function tag _ => some tag
  | .number _ | .text _ | .bool _ | .native _ => none

theorem Value.IsPlain.mark?_eq_none {v : Value} (hv : v.IsPlain) : v.mark? = none := by
  cases v with
  | number | text | bool | native => rfl
  | array | function => cases hv

theorem Task.Creates.mark? {tag : Tag} {t : Task} {v : Value} (h : t.Creates tag v) :
    v.mark? = some tag := by
  cases h <;> rfl

theorem Form.function_inj {params params' : List Name} {body body' : Expr}
    (h : (Form.function params body).toExpr = (Form.function params' body').toExpr) :
    params = params' ∧ body = body' := by
  have hargs : params.map Expr.word ++ [body] = params'.map Expr.word ++ [body'] :=
    (Expr.apply.inj h).2
  obtain ⟨hparams, hbody⟩ := List.append_inj' hargs rfl
  refine ⟨?_, List.cons.inj hbody |>.1⟩
  exact List.map_injective_iff.mpr (fun _ _ heq => Expr.word.inj heq) hparams

namespace Config.Creates

variable {c : Config} {v w : Value}

theorem mark? (h : c.Creates v) : v.mark? = some c.state.nextTag := by
  obtain ⟨t, waiting, -, hcreates⟩ := h
  exact hcreates.mark?

theorem unique (hv : c.Creates v) (hw : c.Creates w) : v = w := by
  obtain ⟨t, waiting, htask, hv⟩ := hv
  obtain ⟨t', waiting', htask', hw⟩ := hw
  rw [htask] at htask'
  cases htask'
  generalize hs : c.state.nextTag = tag at hv hw
  cases hv with
  | array =>
    cases hw
    rfl
  | @function params body scope =>
    generalize ht : Task.evaluate (Form.function params body).toExpr scope = t at hw
    cases hw with
    | array => cases ht
    | function =>
      obtain ⟨hexpr, rfl⟩ := Task.evaluate.inj ht
      obtain ⟨rfl, rfl⟩ := Form.function_inj hexpr
      rfl

/-- The value is handed to what waits, and its mark is used up. -/
theorem step_eq (h : c.Creates v) : ∃ waiting s', step c = .running ⟨.yield v, waiting, s'⟩ ∧
    (∃ t, c.task? = some (t, waiting)) ∧ s'.nextTag = c.state.nextTag + 1 := by
  obtain ⟨t, waiting, htask, hcreates⟩ := h
  have hstep := step_of_task? htask
  generalize hs : c.state.nextTag = tag at hcreates
  cases hcreates with
  | @array items =>
    subst hs
    exact ⟨waiting, (c.state.newArray items).2, hstep, ⟨_, htask⟩, rfl⟩
  | @function params body scope =>
    subst hs
    rw [Task.next, enter_toExpr] at hstep
    exact ⟨waiting, (c.state.newFunction ⟨params, body, scope⟩).2, hstep, ⟨_, htask⟩, rfl⟩

end Config.Creates

/-! ## Native functions -/

namespace Builtin

/-- The value of a native function has no parts, is one of the arguments or an item of one, or is the
new array. -/
theorem origin_call {b : Builtin} {args : List Value} {s s' : State} {v : Value}
    (h : b.call args s = (.ok v, s')) :
    v.IsPlain ∨ v ∈ args ∨ (∃ tag items, .array tag items ∈ args ∧ v ∈ items) ∨
      b = array ∧ v = .array s.nextTag args := by
  unfold call at h
  split at h
  iterate 6
    obtain ⟨m, n, rfl⟩ := exists_of_onNumbers (Prod.mk.inj h).1
    exact .inl trivial
  · cases h
    exact .inl trivial
  · cases h
    exact .inr (.inl List.mem_cons_self)
  · cases h
    exact .inr (.inr (.inr ⟨rfl, rfl⟩))
  · obtain ⟨n, rfl⟩ := exists_of_lengthOf (Prod.mk.inj h).1
    exact .inl trivial
  · obtain ⟨tag, items, rfl, i, hi⟩ := exists_of_elementAt (Prod.mk.inj h).1
    exact .inr (.inr (.inl ⟨tag, items, List.mem_cons_self, List.mem_of_getElem? hi⟩))
  · cases h

end Builtin

/-! ## Steps -/

/-- All values outside of the scopes are as `P` says, and the marks of `s` are still used up. -/
structure Progress.DrawsOn (P : Value → Prop) (s : State) (p : Progress) : Prop where
  later : s.nextTag ≤ p.state.nextTag
  values : ∀ v ∈ p.values, P v

namespace Machine

variable {P : Value → Prop} {s s₁ : State} {stack : List Frame}

theorem evaluate_draws (hs : s.nextTag ≤ s₁.nextTag) (hst : ∀ v ∈ stack.flatMap Frame.values, P v)
    (e : Expr) (scope : ScopeId) : (evaluate e scope stack s₁).DrawsOn P s :=
  ⟨hs, hst⟩

/-- Most frames keep no value. -/
theorem evaluate_cons_draws (hs : s.nextTag ≤ s₁.nextTag)
    (hst : ∀ v ∈ stack.flatMap Frame.values, P v) (e : Expr) (scope : ScopeId) {frame : Frame}
    (hf : ∀ v ∈ frame.values, P v) : (evaluate e scope (frame :: stack) s₁).DrawsOn P s := by
  refine evaluate_draws hs (fun v hv => ?_) e scope
  rcases List.mem_append.mp hv with hv | hv
  · exact hf v hv
  · exact hst v hv

theorem yield_draws (hs : s.nextTag ≤ s₁.nextTag) (hst : ∀ v ∈ stack.flatMap Frame.values, P v)
    {v : Value} (hv : P v) : (yield v stack s₁).DrawsOn P s := by
  refine ⟨hs, fun w hw => ?_⟩
  rcases List.mem_cons.mp hw with rfl | hw
  · exact hv
  · exact hst w hw

theorem fail_draws (hs : s.nextTag ≤ s₁.nextTag) (x : EvalError) : (fail x s₁).DrawsOn P s :=
  ⟨hs, by simp [fail, Progress.values]⟩

variable (hplain : ∀ v, v.IsPlain → P v)
include hplain

theorem apply_draws (hitem : ∀ tag items v, P (.array tag items) → v ∈ items → P v)
    (hst : ∀ v ∈ stack.flatMap Frame.values, P v) {callee : Value} {args : List Value}
    (hargs : ∀ v ∈ args, P v) (hnew : callee = .native .array → P (.array s.nextTag args)) :
    (apply callee args stack s).DrawsOn P s := by
  cases callee with
  | function tag c =>
    simp only [apply]
    split
    · exact evaluate_draws (s.before_push _ _).2 hst _ _
    · exact fail_draws (Nat.le_refl _) _
  | native b =>
    have hlater := (b.before_call args s).2
    simp only [apply]
    cases hcall : b.call args s with
    | mk r s₁ =>
      rw [hcall] at hlater
      cases r with
      | error x => exact fail_draws hlater x
      | ok v =>
        refine yield_draws hlater hst ?_
        rcases Builtin.origin_call hcall with hv | hv | ⟨tag, items, harray, hv⟩ | ⟨rfl, rfl⟩
        · exact hplain v hv
        · exact hargs v hv
        · exact hitem tag items v (hargs _ harray) hv
        · exact hnew rfl
  | number | text | bool | array => exact fail_draws (Nat.le_refl _) _

theorem begin_draws (hst : ∀ v ∈ stack.flatMap Frame.values, P v) (form : Form) (scope : ScopeId)
    (hnew : ∀ params body, form = .function params body →
      P (.function s.nextTag ⟨params, body, scope⟩)) :
    (begin form scope stack s).DrawsOn P s := by
  cases form with
  | sequence items =>
    cases items with
    | nil => exact yield_draws (Nat.le_refl _) hst (hplain _ trivial)
    | cons e rest => exact evaluate_cons_draws (Nat.le_refl _) hst e scope (by simp [Frame.values])
  | choice | loop | define | assign =>
    exact evaluate_cons_draws (Nat.le_refl _) hst _ scope (by simp [Frame.values])
  | function params body => exact yield_draws (Nat.le_succ _) hst (hnew params body rfl)

theorem enter_draws (hbinds : ∀ v, s.heap.Binds v → P v)
    (hst : ∀ v ∈ stack.flatMap Frame.values, P v) (e : Expr) (scope : ScopeId)
    (hnew : ∀ params body, e = (Form.function params body).toExpr →
      P (.function s.nextTag ⟨params, body, scope⟩)) :
    (enter e scope stack s).DrawsOn P s := by
  cases e with
  | number | text => exact yield_draws (Nat.le_refl _) hst (hplain _ trivial)
  | word name =>
    simp only [enter]
    split
    · next v hv => exact yield_draws (Nat.le_refl _) hst (hbinds v (Heap.binds_of_lookup? hv))
    · exact fail_draws (Nat.le_refl _) _
  | apply f args =>
    simp only [enter]
    split
    · next form hform =>
      split
      · next shaped hshape =>
        obtain ⟨rfl, rfl⟩ := SpecialForm.shape_eq_ok_iff.mp hshape
        obtain rfl := SpecialForm.ofOperator?_eq_some.mp hform
        refine begin_draws hplain hst shaped scope fun params body hshaped => ?_
        exact hnew params body (by rw [← hshaped]; rfl)
      · exact fail_draws (Nat.le_refl _) _
    · exact evaluate_cons_draws (Nat.le_refl _) hst f scope (by simp [Frame.values])

/-- The next step uses the values that are there, and besides them only plain ones and new ones. -/
theorem step_draws (hitem : ∀ tag items v, P (.array tag items) → v ∈ items → P v) {c : Config}
    (hbinds : ∀ v, c.state.heap.Binds v → P v) (hvalues : ∀ v ∈ (Progress.running c).values, P v)
    (hnew : ∀ v, c.Creates v → P v) : (step c).DrawsOn P c.state := by
  obtain ⟨control, stack, s⟩ := c
  cases control with
  | evaluate e scope =>
    refine enter_draws hplain hbinds hvalues e scope fun params body he => ?_
    subst he
    exact hnew _ ⟨_, stack, rfl, .function⟩
  | yield v =>
    obtain ⟨hv, hvalues⟩ := List.forall_mem_cons.mp hvalues
    cases stack with
    | nil => exact ⟨Nat.le_refl _, by simpa [step, Progress.values] using hv⟩
    | cons frame stack =>
      obtain ⟨hf, hst⟩ : (∀ w ∈ frame.values, P w) ∧ ∀ w ∈ stack.flatMap Frame.values, P w :=
        List.forall_mem_append.mp hvalues
      simp only [step]
      cases frame with
      | branch yes no scope => exact evaluate_draws (Nat.le_refl _) hst _ scope
      | loopTest condition body scope =>
        simp only [resume]
        split
        · exact evaluate_cons_draws (Nat.le_refl _) hst body scope (by simp [Frame.values])
        · exact yield_draws (Nat.le_refl _) hst (hplain _ trivial)
      | loopBody condition body scope =>
        exact evaluate_cons_draws (Nat.le_refl _) hst condition scope (by simp [Frame.values])
      | sequence rest scope =>
        cases rest with
        | nil => exact yield_draws (Nat.le_refl _) hst hv
        | cons e rest =>
          exact evaluate_cons_draws (Nat.le_refl _) hst e scope (by simp [Frame.values])
      | define name scope => exact yield_draws (s.before_define scope name v).2 hst hv
      | assign name scope =>
        simp only [resume]
        split
        · next owner _ => exact yield_draws (s.before_define owner name v).2 hst hv
        · exact fail_draws (Nat.le_refl _) _
      | operator args scope =>
        simp only [resume]
        split
        · next hcallable =>
          cases args with
          | nil =>
            refine apply_draws hplain hitem hst (by simp) fun hcallee => ?_
            subst hcallee
            exact hnew _ ⟨_, stack, rfl, .array⟩
          | cons e rest =>
            exact evaluate_cons_draws (Nat.le_refl _) hst e scope (by simpa [Frame.values] using hv)
        · exact fail_draws (Nat.le_refl _) _
      | argument callee done rest scope =>
        obtain ⟨hcallee, hdone⟩ := List.forall_mem_cons.mp hf
        have hall : ∀ w ∈ v :: done, P w := List.forall_mem_cons.mpr ⟨hv, hdone⟩
        cases rest with
        | nil =>
          refine apply_draws hplain hitem hst (fun w hw => hall w (List.mem_reverse.mp hw)) ?_
          rintro rfl
          exact hnew _ ⟨_, stack, rfl, .array⟩
        | cons e rest =>
          exact evaluate_cons_draws (Nat.le_refl _) hst e scope
            (List.forall_mem_cons.mpr ⟨hcallee, hall⟩)

end Machine

/-- A step binds names to values that were at hand. -/
theorem Config.Changes.keeps {c : Config} {h : Heap} (hch : c.Changes h) {v : Value}
    (hv : h.Binds v) : (Progress.running c).Keeps v := by
  cases hch with
  | nothing => exact .inl hv
  | callEmpty hn =>
    rcases hv.of_push with ⟨name, hv⟩ | hv
    · have hmem := (List.of_mem_zip (Bindings.mem_of_find?_ofList hv)).2
      cases hmem
    · exact .inl hv
  | @call tag f w done scope stack s hn =>
    rcases hv.of_push with ⟨name, hv⟩ | hv
    · have hmem := List.mem_reverse.mp (List.of_mem_zip (Bindings.mem_of_find?_ofList hv)).2
      right
      rcases List.mem_cons.mp hmem with rfl | hdone
      · exact List.mem_cons_self
      · simp [Progress.values, Control.values, Frame.values, hdone]
    · exact .inl hv
  | define | assign =>
    rcases hv.of_define with rfl | hv
    · exact .inr List.mem_cons_self
    · exact .inl hv

namespace Machine

/-- The items of an array that is being made are at hand. -/
theorem occurs_of_creates {c : Config} {v w : Value} (h : c.Creates w) (hin : v.Inside w) :
    v = w ∨ c.Occurs v := by
  obtain ⟨t, waiting, htask, hcreates⟩ := h
  generalize hs : c.state.nextTag = tag at hcreates
  cases hcreates with
  | function =>
    cases hin
    exact .inl rfl
  | array =>
    cases hin with
    | self => exact .inl rfl
    | @item u _ _ hu hin =>
      right
      refine ⟨u, .inr ?_, hin⟩
      unfold Config.task? at htask
      split at htask
      · cases htask
      · split at htask
        · cases htask
          cases hu
        · cases htask
      · cases htask
        rcases List.mem_cons.mp (List.mem_reverse.mp hu) with rfl | hu
        · exact List.mem_cons_self
        · simp [Progress.values, Control.values, Frame.values, hu]
      · cases htask

theorem nextTag_step_le (c : Config) : c.state.nextTag ≤ (step c).state.nextTag :=
  (step_draws (P := fun _ => True) (fun _ _ => trivial) (fun _ _ _ _ _ => trivial)
    (fun _ _ => trivial) (fun _ _ => trivial) (fun _ _ => trivial)).later

/-- What a step leads to was there before, has no parts, or is made by the step. -/
theorem step_origin {c : Config} {v : Value} (hv : (step c).Occurs v) :
    c.Occurs v ∨ v.IsPlain ∨ c.Creates v := by
  obtain ⟨w, hw, hin⟩ := hv
  have horigin : c.Occurs w ∨ w.IsPlain ∨ c.Creates w := by
    rcases hw with hbinds | hvalue
    · exact .inl ⟨w, (step_changes c).keeps hbinds, .self⟩
    · refine (step_draws (P := fun u => c.Occurs u ∨ u.IsPlain ∨ c.Creates u) (fun u hu => .inr (.inl hu))
        (fun tag items u harray hu => ?_) (fun u hu => .inl ⟨u, .inl hu, .self⟩)
        (fun u hu => .inl ⟨u, .inr hu, .self⟩) (fun u hu => .inr (.inr hu))).values w hvalue
      rcases harray with hold | hplain | hnew
      · exact .inl (hold.inside (.item hu .self))
      · cases hplain
      · rcases occurs_of_creates hnew (.item hu .self) with heq | hold
        · exact .inr (.inr (heq ▸ hnew))
        · exact .inl hold
  rcases horigin with hold | hplain | hnew
  · exact .inl (hold.inside hin)
  · exact .inr (.inl (hplain.eq_of_inside hin ▸ hplain))
  · rcases occurs_of_creates hnew hin with rfl | hold
    · exact .inr (.inr hnew)
    · exact .inl hold

end Machine

end Egg
