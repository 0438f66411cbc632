import Egg.Proofs.Eval.Provenance
import Egg.Proofs.Eval.Session
import Mathlib

/-!
# Identities are coherent

Arrays and functions are compared by their marks, so the mark of a value ought to tell which value it
is. Each step of an evaluation makes at most one marked value, with a mark that is not in use, and
all others come from elsewhere as they are (`Machine.step_origin`). So at no time do two different
arrays or functions bear the same mark, in whatever way a session goes
(`Session.identities_coherent`).
-/

namespace Egg

open Machine

/-! ## Marks that tell values apart -/

theorem Value.mark?_of_strictEq {v w : Value} {tag : Tag} (hv : v.mark? = some tag)
    (h : v.strictEq w = true) : w.mark? = some tag := by
  cases v with
  | number | text | bool | native => cases hv
  | array | function =>
    cases hv
    cases w with
    | array | function => simp_all [strictEq, Value.mark?]
    | number | text | bool | native => cases h

theorem Value.strictEq_comm (v w : Value) (tag : Tag) (hv : v.mark? = some tag) :
    v.strictEq w = w.strictEq v := by
  cases v with
  | number | text | bool | native => cases hv
  | array | function => cases w <;> simp [strictEq, Bool.beq_comm]

theorem Value.strictEq_self {v : Value} (hv : v.mark? ≠ none) : v.strictEq v = true := by
  cases v with
  | number | text | bool | native => exact absurd rfl hv
  | array | function => simp [strictEq]

/-- Arrays and functions are identical with themselves. Of values that are identical, arrays have the
same items, and functions are the same. -/
structure Coherent (P : Value → Prop) : Prop where
  self : ∀ v, P v → v.mark? ≠ none → v.strictEq v = true
  arrays : ∀ tag tag' items items', P (.array tag items) → P (.array tag' items') →
    (Value.array tag items).strictEq (.array tag' items') = true → items = items'
  functions : ∀ tag tag' c c', P (.function tag c) → P (.function tag' c') →
    (Value.function tag c).strictEq (.function tag' c') = true →
      c.params = c'.params ∧ c.body = c'.body ∧ c.scope = c'.scope

/-- All marks are below `next`, and values with the same mark are the same. -/
structure Marked (P : Value → Prop) (next : Tag) : Prop where
  below : ∀ v tag, P v → v.mark? = some tag → tag < next
  unique : ∀ v w tag, P v → P w → v.mark? = some tag → w.mark? = some tag → v = w

namespace Marked

variable {P P' N : Value → Prop} {next next' : Tag}

theorem coherent (h : Marked P next) : Coherent P := by
  constructor
  · intro v _ hv
    exact Value.strictEq_self hv
  · intro tag tag' items items' hv hw heq
    have hsame := h.unique _ _ tag hv hw rfl (Value.mark?_of_strictEq rfl heq)
    cases hsame
    rfl
  · intro tag tag' c c' hv hw heq
    have hsame := h.unique _ _ tag hv hw rfl (Value.mark?_of_strictEq rfl heq)
    cases hsame
    exact ⟨rfl, rfl, rfl⟩

/-- A value with the next mark is identical with none of those that are there. -/
theorem strictEq_eq_false (h : Marked P next) {v w : Value} (hv : v.mark? = some next) (hw : P w) :
    v.strictEq w = false ∧ w.strictEq v = false := by
  have hne : v.strictEq w = false := by
    by_contra heq
    have hmark := Value.mark?_of_strictEq hv (Bool.eq_true_of_not_eq_false heq)
    exact Nat.lt_irrefl next (h.below w next hw hmark)
  exact ⟨hne, Value.strictEq_comm v w next hv ▸ hne⟩

/-- Values without a mark, and one value that uses up the next mark, may be added. -/
theorem grow (h : Marked P next) (hle : next ≤ next')
    (hP : ∀ v, P' v → P v ∨ v.mark? = none ∨ N v)
    (hmark : ∀ v, N v → v.mark? = some next ∧ next < next')
    (hN : ∀ v w, N v → N w → v = w) : Marked P' next' := by
  refine ⟨fun v tag hv htag => ?_, fun v w tag hv hw hvtag hwtag => ?_⟩
  · rcases hP v hv with hold | hnone | hnew
    · exact Nat.lt_of_lt_of_le (h.below v tag hold htag) hle
    · rw [hnone] at htag
      cases htag
    · obtain ⟨hnext, hlt⟩ := hmark v hnew
      rw [htag] at hnext
      cases hnext
      exact hlt
  · -- an old mark is below the next one, so both values are old or both are new
    have hold_ne_new : ∀ a b, P a → N b → a.mark? = some tag → b.mark? ≠ some tag := by
      intro a b ha hb hatag hbtag
      have hlt := h.below a tag ha hatag
      rw [(hmark b hb).1] at hbtag
      cases hbtag
      exact Nat.lt_irrefl _ hlt
    rcases hP v hv with hvold | hvnone | hvnew
    · rcases hP w hw with hwold | hwnone | hwnew
      · exact h.unique v w tag hvold hwold hvtag hwtag
      · rw [hwnone] at hwtag
        cases hwtag
      · exact absurd hwtag (hold_ne_new v w hvold hwnew hvtag)
    · rw [hvnone] at hvtag
      cases hvtag
    · rcases hP w hw with hwold | hwnone | hwnew
      · exact absurd hvtag (hold_ne_new w v hwold hvnew hwtag)
      · rw [hwnone] at hwtag
        cases hwtag
      · exact hN v w hvnew hwnew

/-- Only values without a mark are added. -/
theorem mono (h : Marked P next) (hle : next ≤ next') (hP : ∀ v, P' v → P v ∨ v.mark? = none) :
    Marked P' next' := by
  refine h.grow (N := fun _ => False) hle (fun v hv => ?_) (fun _ hv => hv.elim)
    (fun _ _ hv => hv.elim)
  rcases hP v hv with hold | hnone
  · exact .inl hold
  · exact .inr (.inl hnone)

end Marked

/-- A step keeps the marks telling values apart, also from others that are remembered elsewhere. -/
theorem Machine.step_marked {c : Config} {Q : Value → Prop}
    (h : Marked (fun v => c.Occurs v ∨ Q v) c.state.nextTag) :
    Marked (fun v => (step c).Occurs v ∨ Q v) (step c).state.nextTag := by
  refine h.grow (N := c.Creates) (nextTag_step_le c) (fun v hv => ?_) (fun v hv => ⟨hv.mark?, ?_⟩)
    (fun v w hv hw => hv.unique hw)
  · rcases hv with hv | hv
    · rcases step_origin hv with hold | hplain | hnew
      · exact .inl (.inl hold)
      · exact .inr (.inl hplain.mark?_eq_none)
      · exact .inr (.inr hnew)
    · exact .inl (.inr hv)
  · obtain ⟨waiting, s', hstep, -, htag⟩ := hv.step_eq
    rw [hstep]
    exact Nat.lt_of_lt_of_eq (Nat.lt_succ_self _) htag.symm

/-! ## Moments of a session -/

namespace Session

/-- The value is in a scope, or has been handed out, by itself or inside of an array. -/
def Occurs (σ : Session) (v : Value) : Prop :=
  σ.state.heap.Holds v ∨ ∃ w ∈ σ.values, v.Inside w

/-- What the session can ask the evaluator to do. -/
inductive Begins (σ : Session) : Task → Prop where
  | evaluate (e : Expr) {id : ScopeId} (hid : id ∈ σ.scopes) : Begins σ (.evaluate e id)
  | apply {callee : Value} {args : List Value} (hc : callee ∈ σ.values)
      (hargs : ∀ v ∈ args, v ∈ σ.values) : Begins σ (.apply callee args)

/-- The moments of evaluations and applications that begin in the session. -/
inductive Moment (σ : Session) : Config → Prop where
  | first {t : Task} {c : Config} (ht : σ.Begins t) (hc : c.task? = some (t, []))
      (hs : c.state = σ.state) : Moment σ c
  | next {c c' : Config} (h : Moment σ c) (hstep : step c = .running c') : Moment σ c'

variable {σ σ' : Session}

theorem Moment.run {c c' : Config} (h : σ.Moment c) {n : Nat}
    (hrun : Machine.run n c = .running c') : σ.Moment c' := by
  induction n generalizing c with
  | zero =>
    cases hrun
    exact h
  | succ n ih =>
    rw [Progress.run_succ] at hrun
    cases hstep : step c with
    | running c₁ =>
      rw [hstep] at hrun
      exact ih (h.next hstep) hrun
    | finished r s =>
      rw [hstep] at hrun
      cases hrun

/-- What is at hand when a task begins, with nothing waiting, is what the task is about. -/
theorem mem_of_task? {c : Config} {t : Task} (hc : c.task? = some (t, [])) {v : Value}
    (hv : v ∈ (Progress.running c).values) :
    ∃ callee args, t = .apply callee args ∧ v ∈ callee :: args := by
  unfold Config.task? at hc
  split at hc
  · cases hc
    cases hv
  · next w scope stack s =>
    split at hc
    · cases hc
      exact ⟨w, [], rfl, hv⟩
    · cases hc
  · next w callee done scope stack s =>
    cases hc
    refine ⟨callee, (w :: done).reverse, rfl, ?_⟩
    simp only [Progress.values, Control.values, Frame.values, List.flatMap_cons, List.flatMap_nil,
      List.append_nil, List.mem_append, List.mem_cons, List.not_mem_nil, or_false] at hv
    simp only [List.mem_cons, List.mem_reverse]
    tauto
  · cases hc

theorem Moment.first_occurs {t : Task} {c : Config} (ht : σ.Begins t)
    (hc : c.task? = some (t, [])) (hs : c.state = σ.state) {v : Value} (hv : c.Occurs v) :
    σ.Occurs v := by
  obtain ⟨w, hbinds | hvalue, hin⟩ := hv
  · exact .inl ⟨w, hs ▸ hbinds, hin⟩
  · obtain ⟨callee, args, rfl, hmem⟩ := mem_of_task? hc hvalue
    cases ht with
    | apply hcallee hargs =>
      rcases List.mem_cons.mp hmem with rfl | hmem
      · exact .inr ⟨_, hcallee, hin⟩
      · exact .inr ⟨w, hargs w hmem, hin⟩

/-- The marks of a session tell its values apart. -/
def IsMarked (σ : Session) : Prop := Marked σ.Occurs σ.state.nextTag

theorem Moment.marked (hσ : σ.IsMarked) {c : Config} (h : σ.Moment c) :
    Marked (fun v => c.Occurs v ∨ σ.Occurs v) c.state.nextTag := by
  induction h with
  | first ht hc hs =>
    refine Marked.mono hσ (Nat.le_of_eq (by rw [hs])) fun v hv => .inl ?_
    rcases hv with hv | hv
    · exact first_occurs ht hc hs hv
    · exact hv
  | next _ hstep ih =>
    have hnext := step_marked ih
    rw [hstep] at hnext
    exact hnext

/-- All references are good, except that nothing is known of the scope in which an application by the
session itself stands. -/
theorem Moment.wellFormed (hσ : σ.WellFormed) {c : Config} (h : σ.Moment c) :
    (step c).WellFormed ∧ (c.WellFormed ∨ ∃ t, c.task? = some (t, [])) := by
  induction h with
  | @first t c ht hc hs =>
    refine ⟨?_, .inr ⟨t, hc⟩⟩
    rw [step_of_task? hc, Progress.over_nil, hs]
    cases ht with
    | evaluate e hid =>
      exact step_wellFormed (evaluate_wellFormed hσ.heap (by simp) e (hσ.scopes _ hid))
    | apply hcallee hargs =>
      exact apply_wellFormed hσ.heap (hσ.values _ hcallee) fun v hv => hσ.values v (hargs v hv)
  | @next c c' _ hstep ih =>
    have hc' : c'.WellFormed := by
      have hnext := ih.1
      rw [hstep] at hnext
      exact hnext
    exact ⟨step_wellFormed hc', .inl hc'⟩

/-! ## How evaluations and applications end -/

/-- An evaluation that has ended did so with the step after some moment. -/
theorem exists_moment_of_evaluate {steps : Nat} {e : Expr} {id : ScopeId}
    {r : Except RunError Value} {s : State} (hid : id ∈ σ.scopes)
    (h : Program.evaluate steps e id σ.state = some (r, s)) :
    ∃ c result, σ.Moment c ∧ step c = .finished result s ∧ r = result.mapError .evaluation := by
  obtain ⟨result, hr, hrun⟩ := Program.ends_of_evaluate h
  obtain ⟨m, -, c, hm, hstep⟩ := exists_last_moment hrun
  have hfirst : σ.Moment ⟨.evaluate e id, [], σ.state⟩ := .first (.evaluate e hid) rfl rfl
  exact ⟨c, result, hfirst.run hm, hstep, hr⟩

/-- An application that can begin does so at some moment. -/
theorem exists_first_apply (callee : Value) (args : List Value) (s : State)
    (h : callee.isCallable = true ∨ args ≠ []) :
    ∃ c : Config, c.task? = some (.apply callee args, []) ∧ c.state = s := by
  rcases List.eq_nil_or_concat args with rfl | ⟨before, v, rfl⟩
  · have hcallable : callee.isCallable = true := h.resolve_right (by simp)
    exact ⟨⟨.yield callee, [.operator [] 0], s⟩, by simp [Config.task?, hcallable], rfl⟩
  · exact ⟨⟨.yield v, [.argument callee before.reverse [] 0], s⟩, by simp [Config.task?], rfl⟩

/-- An application that has ended did so with the step after some moment, or because the value cannot
be applied. -/
theorem exists_moment_of_apply {steps : Nat} {callee : Value} {args : List Value}
    {r : Except RunError Value} {s : State} (hc : callee ∈ σ.values)
    (hargs : ∀ v ∈ args, v ∈ σ.values)
    (h : Program.apply steps callee args σ.state = some (r, s)) :
    (∃ c result, σ.Moment c ∧ step c = .finished result s ∧ r = result.mapError .evaluation) ∨
      (s = σ.state ∧ ∃ x, r = .error x) := by
  by_cases hbegins : callee.isCallable = true ∨ args ≠ []
  · left
    obtain ⟨c, htask, hs⟩ := exists_first_apply callee args σ.state hbegins
    have hfirst : σ.Moment c := .first (.apply hc hargs) htask hs
    have hnext : step c = Machine.apply callee args [] σ.state := by
      rw [step_of_task? htask, Progress.over_nil, hs]
      rfl
    obtain ⟨result, hr, hrun⟩ := Progress.exists_of_outcome? (Program.apply_eq .. ▸ h)
    have hrun' : Machine.run (steps + 1) c = .finished result s := by
      rw [Progress.run_succ, hnext, hrun]
    obtain ⟨m, -, c', hm, hstep⟩ := exists_last_moment hrun'
    exact ⟨c', result, hfirst.run hm, hstep, hr⟩
  · right
    obtain ⟨hcallee, rfl⟩ := not_or.mp hbegins |>.imp_right not_not.mp
    cases callee with
    | function | native => exact absurd rfl hcallee
    | number | text | bool | array =>
      cases h
      exact ⟨rfl, _, rfl⟩

/-! ## Steps of a session -/

theorem occurs_of_keepValue {v w : Value} (h : (σ.keepValue v).Occurs w) :
    w.Inside v ∨ σ.Occurs w := by
  rcases h with h | ⟨u, hu, hin⟩
  · exact .inr (.inl h)
  · rcases List.mem_cons.mp hu with rfl | hu
    · exact .inl hin
    · exact .inr (.inr ⟨u, hu, hin⟩)

theorem occurs_of_receive {r : Result} {s : State} {v : Value}
    (h : ((σ.become s).receive (r.mapError .evaluation)).Occurs v) :
    (Progress.finished r s).Occurs v ∨ σ.Occurs v := by
  have hbecome : (σ.become s).Occurs v → (Progress.finished r s).Occurs v ∨ σ.Occurs v := by
    rintro (⟨w, hbinds, hin⟩ | ⟨w, hw, hin⟩)
    · exact .inl ⟨w, .inl hbinds, hin⟩
    · exact .inr (.inr ⟨w, hw, hin⟩)
  cases r with
  | error x => exact hbecome h
  | ok w =>
    rcases occurs_of_keepValue h with hin | h
    · exact .inl ⟨w, .inr List.mem_cons_self, hin⟩
    · exact hbecome h

namespace IsMarked

/-- No marked value is added. -/
theorem keep (hσ : σ.IsMarked) (hle : σ.state.nextTag ≤ σ'.state.nextTag)
    (h : ∀ v, σ'.Occurs v → σ.Occurs v ∨ v.mark? = none) : σ'.IsMarked :=
  Marked.mono hσ hle h

theorem keepValue (hσ : σ.IsMarked) {v : Value} (hv : ∀ w, w.Inside v → σ.Occurs w ∨ w.mark? = none) :
    (σ.keepValue v).IsMarked := by
  refine hσ.keep (Nat.le_refl _) fun w hw => ?_
  rcases occurs_of_keepValue hw with hin | hold
  · exact hv w hin
  · exact .inl hold

theorem push (hσ : σ.IsMarked) (bindings : Bindings) (parent : Option ScopeId)
    (hb : ∀ name v, bindings.find? name = some v → v.IsPlain) :
    ((σ.become (σ.state.push bindings parent).2).keepScope
      (σ.state.push bindings parent).1).IsMarked := by
  refine hσ.keep (σ.state.before_push bindings parent).2 fun v hv => ?_
  rcases hv with ⟨w, hbinds, hin⟩ | hv
  · rcases hbinds.of_push with ⟨name, hw⟩ | hbinds
    · have hplain := hb name w hw
      exact .inr (hplain.eq_of_inside hin ▸ hplain.mark?_eq_none)
    · exact .inl (.inl ⟨w, hbinds, hin⟩)
  · exact .inl (.inr hv)

theorem define (hσ : σ.IsMarked) (id : ScopeId) (name : Name) {v : Value} (hv : v ∈ σ.values) :
    (σ.become (σ.state.define id name v)).IsMarked := by
  refine hσ.keep (σ.state.before_define id name v).2 fun w hw => .inl ?_
  rcases hw with ⟨u, hbinds, hin⟩ | hw
  · rcases hbinds.of_define with rfl | hbinds
    · exact .inr ⟨u, hv, hin⟩
    · exact .inl ⟨u, hbinds, hin⟩
  · exact .inr hw

/-- A value with the next mark is made of what is there. -/
theorem make (hσ : σ.IsMarked) {s : State} {v : Value} (hheap : s.heap = σ.state.heap)
    (htag : s.nextTag = σ.state.nextTag + 1) (hmark : v.mark? = some σ.state.nextTag)
    (hv : ∀ w, w.Inside v → w = v ∨ σ.Occurs w) : ((σ.become s).keepValue v).IsMarked := by
  have hlt : σ.state.nextTag < s.nextTag := Nat.lt_of_lt_of_eq (Nat.lt_succ_self _) htag.symm
  refine Marked.grow (N := (· = v)) hσ hlt.le (fun w hw => ?_) (fun w hw => ⟨hw ▸ hmark, hlt⟩)
    (fun w w' hw hw' => hw.trans hw'.symm)
  rcases occurs_of_keepValue hw with hin | ⟨u, hbinds, hin⟩ | hw
  · rcases hv w hin with rfl | hold
    · exact .inr (.inr rfl)
    · exact .inl hold
  · exact .inl (.inl ⟨u, hheap ▸ hbinds, hin⟩)
  · exact .inl (.inr hw)

/-- An evaluation or application has ended. -/
theorem finish (hσ : σ.IsMarked) {c : Config} (hc : σ.Moment c) {r : Result} {s : State}
    (hstep : step c = .finished r s) :
    ((σ.become s).receive (r.mapError .evaluation)).IsMarked := by
  have hend := step_marked (hc.marked hσ)
  rw [hstep] at hend
  have hstate : ((σ.become s).receive (r.mapError .evaluation)).state = s := by cases r <;> rfl
  refine hend.mono (Nat.le_of_eq (by rw [hstate]; rfl)) fun v hv => .inl ?_
  exact occurs_of_receive hv

end IsMarked

theorem Step.isMarked (hstep : σ.Step σ') (hσ : σ.IsMarked) : σ'.IsMarked := by
  cases hstep with
  | root | child => exact hσ.push _ _ fun _ _ hv => by cases hv
  | global => exact hσ.push _ _ fun _ _ hv => Bindings.isPlain_global hv
  | define name hid hv => exact hσ.define _ name hv
  | assign hid hv hs =>
    obtain ⟨owner, -, rfl⟩ := State.assign?_eq_some.mp hs
    exact hσ.define owner _ hv
  | lookup hid hv =>
    exact hσ.keepValue fun w hin => .inl (.inl ⟨_, Heap.binds_of_lookup? hv, hin⟩)
  | plain hv => exact hσ.keepValue fun w hin => .inr (hv.eq_of_inside hin ▸ hv.mark?_eq_none)
  | array hitems =>
    refine hσ.make (σ.state.heap_newArray _) rfl rfl fun w hin => ?_
    cases hin with
    | self => exact .inl rfl
    | item hv hin => exact .inr (.inr ⟨_, hitems _ hv, hin⟩)
  | item ha hv => exact hσ.keepValue fun w hin => .inl (.inr ⟨_, ha, .item hv hin⟩)
  | function params body hid =>
    refine hσ.make (σ.state.heap_newFunction _) rfl rfl fun w hin => ?_
    cases hin
    exact .inl rfl
  | captured hf => exact hσ.keep (Nat.le_refl _) fun _ hv => .inl hv
  | output f => exact hσ.keep (Nat.le_refl _) fun _ hv => .inl hv
  | evaluate hid h =>
    obtain ⟨c, r, hc, hend, rfl⟩ := exists_moment_of_evaluate hid h
    exact hσ.finish hc hend
  | apply hc hargs h =>
    rcases exists_moment_of_apply hc hargs h with ⟨c, r, hc, hend, rfl⟩ | ⟨rfl, x, rfl⟩
    · exact hσ.finish hc hend
    · exact hσ

theorem Reachable.isMarked (h : σ.Reachable) : σ.IsMarked := by
  induction h with
  | start sink =>
    refine ⟨fun v _ hv => ?_, fun v _ _ hv => ?_⟩ <;>
    · obtain ⟨w, ⟨id, scope, name, hget, -⟩, -⟩ | ⟨w, hw, -⟩ := hv
      · cases hget
      · cases hw
  | step _ hstep ih => exact hstep.isMarked ih

/-- Running a source text in a scope that has been handed out is something a session can do. -/
theorem Reachable.runIn (h : σ.Reachable) {steps : Nat} {source : String} {id : ScopeId}
    {r : Except RunError Value} {s : State} (hid : id ∈ σ.scopes)
    (hrun : Program.runIn steps source id σ.state = some (r, s)) :
    ((σ.become s).receive r).Reachable := by
  unfold Program.runIn Program.start at hrun
  cases hparse : Syntax.parse source with
  | ok e =>
    rw [hparse] at hrun
    exact h.step (.evaluate hid hrun)
  | error x =>
    rw [hparse] at hrun
    cases hrun
    exact h

/-- So is running it in a scope of its own. -/
theorem Reachable.runSource (h : σ.Reachable) {steps : Nat} {source : String}
    {r : Except RunError Value} {s : State}
    (hrun : Program.runSource steps source σ.state = some (r, s)) :
    ∃ σ' : Session, σ'.Reachable ∧ σ'.state = s ∧ (∀ id ∈ σ.scopes, id ∈ σ'.scopes) ∧
      σ'.values = ((σ.become s).receive r).values := by
  have hglobal := h.step .global
  have hprogram := hglobal.step (.child List.mem_cons_self)
  refine ⟨_, hprogram.runIn List.mem_cons_self hrun, ?_⟩
  cases r with
  | ok v => exact ⟨rfl, fun id hid => by simp [receive, keepValue, keepScope, become, hid], rfl⟩
  | error x => exact ⟨rfl, fun id hid => by simp [receive, keepScope, become, hid], rfl⟩

end Session

/-! ## Values that are passed on -/

namespace Heap

theorem lookup?_define_self {h : Heap} (ho : h.ParentsOlder) {id : ScopeId} (hid : id < h.size)
    (name : Name) (v : Value) : (h.define id name v).lookup? id name = some v := by
  obtain ⟨scope, hs⟩ := exists_get?_of_lt hid
  have hget : (h.define id name v).get? id =
      some { scope with bindings := scope.bindings.insert name v } := by
    rw [get?_define, if_pos rfl, hs]
    rfl
  exact lookup?_of_resolves (ho.define id name v) (.here hget (by simp))

/-- A new value takes the place of the nearest binding. -/
theorem Resolves.define {h : Heap} {name : Name} {id owner : ScopeId} {v w : Value}
    (hr : h.Resolves name id owner w) : (h.define owner name v).Resolves name id owner v := by
  induction hr with
  | @here id scope w hs hw =>
    have hget : (h.define id name v).get? id =
        some { scope with bindings := scope.bindings.insert name v } := by
      rw [get?_define, if_pos rfl, hs]
      rfl
    exact .here hget (by simp)
  | @outward id parent owner scope w hs hn hp hr ih =>
    have hne : owner ≠ id := by
      rintro rfl
      obtain ⟨scope', hs', hw⟩ := hr.get?_owner
      rw [hs] at hs'
      cases hs'
      rw [hn] at hw
      cases hw
    exact .outward (by rw [get?_define, if_neg hne, hs]) hn hp ih

theorem lookup?_define_owner {h : Heap} (ho : h.ParentsOlder) {id owner : ScopeId}
    (hid : id < h.size) {name : Name} (howner : h.owner? id name = some owner) (v : Value) :
    (h.define owner name v).lookup? id name = some v := by
  obtain ⟨w, hr⟩ := resolves_of_owner? ho hid howner
  exact lookup?_of_resolves (ho.define owner name v) hr.define

end Heap

/-- The last of the values that are given to a name counts. -/
theorem Bindings.find?_ofList_append (before after : List (Name × Value)) {name : Name} (v : Value)
    (h : name ∉ after.map Prod.fst) :
    (ofList (before ++ (name, v) :: after)).find? name = some v := by
  have hsnoc : ∀ (entries : List (Name × Value)) (n : Name) (w : Value),
      ofList (entries ++ [(n, w)]) = (ofList entries).insert n w := by
    intro entries n w
    simp [ofList]
  induction after using List.reverseRecOn with
  | nil => rw [hsnoc, find?_insert, if_pos rfl]
  | append_singleton after e ih =>
    obtain ⟨n, w⟩ := e
    simp only [List.map_append, List.mem_append, List.map_cons, List.map_nil, List.mem_singleton,
      not_or] at h
    rw [← List.cons_append, ← List.append_assoc, hsnoc, find?_insert, if_neg h.2]
    exact ih h.1

/-- What the next step does with the values that are there. -/
structure Config.KeepsIdentity (c : Config) : Prop where
  /-- Nothing comes up but what was there, what has no parts, and what is made. -/
  origin : ∀ v, (step c).Occurs v → c.Occurs v ∨ v.IsPlain ∨ c.Creates v
  /-- A word gives what it is bound to. -/
  word : ∀ name scope stack s v, c = ⟨.evaluate (.word name) scope, stack, s⟩ →
    s.heap.lookup? scope name = some v → step c = .running ⟨.yield v, stack, s⟩
  /-- A definition binds its name to the value, and hands it on. -/
  define : ∀ v name scope stack s, c = ⟨.yield v, .define name scope :: stack, s⟩ →
    ∃ s', step c = .running ⟨.yield v, stack, s'⟩ ∧ s'.heap.lookup? scope name = some v
  assign : ∀ v name scope stack s c', c = ⟨.yield v, .assign name scope :: stack, s⟩ →
    step c = .running c' → ∃ s', c' = ⟨.yield v, stack, s'⟩ ∧ s'.heap.lookup? scope name = some v
  /-- A call binds the parameters to the arguments, and hands on the value of the body. -/
  call : ∀ tag f args waiting, c.task? = some (.apply (.function tag f) args, waiting) →
    f.params.length = args.length → ∃ s',
      step c = .running ⟨.evaluate f.body c.state.heap.size, waiting, s'⟩ ∧
      (∀ before name v after, f.params.zip args = before ++ (name, v) :: after →
        name ∉ after.map Prod.fst → s'.heap.lookup? c.state.heap.size name = some v) ∧
      ∀ steps v s₁, Program.evaluate steps f.body c.state.heap.size s' = some (.ok v, s₁) →
        ∃ n, run n c = .running ⟨.yield v, waiting, s₁⟩
  print : ∀ v waiting, c.task? = some (.apply (.native .print) [v], waiting) →
    ∃ s', step c = .running ⟨.yield v, waiting, s'⟩
  element : ∀ x index waiting c', c.task? = some (.apply (.native .element) [x, index], waiting) →
    step c = .running c' → ∃ tag items, x = .array tag items ∧
      ∃ (i : Nat) (v : Value), items[i]? = some v ∧ c' = ⟨.yield v, waiting, c.state⟩

/-- What a step does with values is so at every moment that a session can come to. -/
theorem Config.keepsIdentity {c : Config} (hnext : (step c).WellFormed)
    (hc : c.WellFormed ∨ ∃ t, c.task? = some (t, [])) : c.KeepsIdentity where
  origin _ hv := step_origin hv
  word := by
    rintro name scope stack s v rfl hv
    simp only [step, enter, hv]
    rfl
  define := by
    rintro v name scope stack s rfl
    have hwf : Config.WellFormed ⟨.yield v, .define name scope :: stack, s⟩ :=
      hc.resolve_right (by simp [Config.task?])
    have hscope : scope < s.heap.size := hwf.stack _ List.mem_cons_self
    exact ⟨s.define scope name v, rfl,
      Heap.lookup?_define_self hwf.heap.parentsOlder hscope name v⟩
  assign := by
    rintro v name scope stack s c' rfl hstep
    have hwf : Config.WellFormed ⟨.yield v, .assign name scope :: stack, s⟩ :=
      hc.resolve_right (by simp [Config.task?])
    have hscope : scope < s.heap.size := hwf.stack _ List.mem_cons_self
    have ho := hwf.heap.parentsOlder
    simp only [step, resume] at hstep
    split at hstep
    · next owner howner =>
      cases hstep
      exact ⟨s.define owner name v, rfl, Heap.lookup?_define_owner ho hscope howner v⟩
    · cases hstep
  call := by
    intro tag f args waiting htask hn
    have hstep : step c = .running ⟨.evaluate f.body c.state.heap.size, waiting,
        (c.state.push (.ofList (f.params.zip args)) (some f.scope)).2⟩ := by
      rw [step_of_task? htask]
      simp only [Task.next, apply, if_pos hn]
      rfl
    rw [hstep] at hnext
    refine ⟨_, hstep, fun before name v after hzip hname => ?_, fun steps v s₁ hbody => ?_⟩
    · have hget : (c.state.heap.push (.ofList (f.params.zip args)) (some f.scope)).get?
          c.state.heap.size = some ⟨.ofList (f.params.zip args), some f.scope⟩ := by
        rw [Heap.get?_push, if_pos rfl]
      refine Heap.lookup?_of_resolves hnext.heap.parentsOlder (.here hget ?_)
      rw [hzip]
      exact Bindings.find?_ofList_append before after v hname
    · obtain ⟨r, hr, hrun⟩ := Program.ends_of_evaluate hbody
      cases r with
      | error x => cases hr
      | ok w =>
        cases hr
        obtain ⟨m, -, -, hm⟩ := run_over_of_ok hrun waiting
        refine ⟨m + 1, ?_⟩
        rw [Progress.run_succ, hstep]
        exact hm
  print := by
    intro v waiting htask
    exact ⟨c.state.printLine v.display, step_of_task? htask⟩
  element := by
    intro x index waiting c' htask hstep
    rw [step_of_task? htask] at hstep
    cases hvalue : Builtin.elementAt x index with
    | error e =>
      simp only [Task.next, apply, Builtin.call, hvalue] at hstep
      cases hstep
    | ok v =>
      simp only [Task.next, apply, Builtin.call, hvalue] at hstep
      cases hstep
      obtain ⟨tag, items, rfl, i, hi⟩ := Builtin.exists_of_elementAt hvalue
      exact ⟨tag, items, rfl, i, v, hi, rfl⟩

/-! ## Every session -/

namespace Session

/-- In a session that has come about in any way, arrays and functions are identical with themselves,
identical arrays have the same items and identical functions are the same, wherever they are. This is
so at every moment of the next evaluation or application too, also with respect to what was there when
it began. A step that makes an array or a function hands on a value that is identical with nothing that
is there, and all other steps take values from one place to another as they are. Running a source text
is one of the things that a session can do. -/
theorem identities_coherent {σ : Session} (h : σ.Reachable) :
    Coherent σ.Occurs ∧
    (∀ c, σ.Moment c → Coherent (fun v => c.Occurs v ∨ σ.Occurs v) ∧ c.KeepsIdentity ∧
      ∀ v, c.Creates v →
        (∃ t waiting s', c.task? = some (t, waiting) ∧ step c = .running ⟨.yield v, waiting, s'⟩) ∧
        ∀ w, c.Occurs w ∨ σ.Occurs w → v.strictEq w = false ∧ w.strictEq v = false) ∧
    (∀ id ∈ σ.scopes, ∀ name v, (σ.state.define id name v).heap.lookup? id name = some v ∧
      ∀ s, σ.state.assign? id name v = some s → s.heap.lookup? id name = some v) ∧
    (∀ items, ∀ w, σ.Occurs w → (σ.state.newArray items).1.strictEq w = false) ∧
    (∀ closure, ∀ w, σ.Occurs w → (σ.state.newFunction closure).1.strictEq w = false) ∧
    (∀ steps source r s, ∀ id ∈ σ.scopes, Program.runIn steps source id σ.state = some (r, s) →
      ((σ.become s).receive r).Reachable) ∧
    (∀ steps source r s, Program.runSource steps source σ.state = some (r, s) →
      ∃ σ' : Session, σ'.Reachable ∧ σ'.state = s ∧ (∀ id ∈ σ.scopes, id ∈ σ'.scopes) ∧
        σ'.values = ((σ.become s).receive r).values) := by
  have hσ := h.isMarked
  refine ⟨Marked.coherent hσ, fun c hc => ?_, fun id hid name v => ⟨?_, fun s hs => ?_⟩,
    fun items w hw => ?_, fun closure w hw => ?_,
    fun steps source r s id hid hrun => h.runIn hid hrun,
    fun steps source r s hrun => h.runSource hrun⟩
  · have hmarked := hc.marked hσ
    obtain ⟨hnext, hwf⟩ := hc.wellFormed h.wellFormed
    refine ⟨hmarked.coherent, Config.keepsIdentity hnext hwf, fun v hv => ⟨?_, fun w hw => ?_⟩⟩
    · obtain ⟨waiting, s', hstep, ⟨t, ht⟩, -⟩ := hv.step_eq
      exact ⟨t, waiting, s', ht, hstep⟩
    · exact hmarked.strictEq_eq_false hv.mark? hw
  · exact Heap.lookup?_define_self h.wellFormed.heap.parentsOlder (h.wellFormed.scopes id hid) name v
  · obtain ⟨owner, howner, rfl⟩ := State.assign?_eq_some.mp hs
    exact Heap.lookup?_define_owner h.wellFormed.heap.parentsOlder (h.wellFormed.scopes id hid) howner v
  · exact (Marked.strictEq_eq_false hσ rfl hw).1
  · exact (Marked.strictEq_eq_false hσ rfl hw).1

/-- After `define(a, array("x"))`, the session applies `array` to `"x"` once more. The items are the
same, but not the arrays. -/
theorem identities_coherent_equal_items :
    ∃ σ : Session, σ.Reachable ∧ σ.Occurs (.array 0 [.text "x"]) ∧
      (Value.array 0 [.text "x"]).strictEq (.array 0 [.text "x"]) = true ∧
      ∃ c, σ.Moment c ∧ c.Creates (.array 1 [.text "x"]) ∧
        (Value.array 1 [.text "x"]).strictEq (.array 0 [.text "x"]) = false := by
  have hrun : (Program.evaluate 20 (.apply (.word "define")
      [.word "a", .apply (.word "array") [.text "x"]]) 1
        ((State.initial .silent).pushGlobal.2.pushChild 0).2).map
          (fun outcome => (outcome.1, outcome.2.nextTag)) = some (.ok (.array 0 [.text "x"]), 1) := by
    cbv
  obtain ⟨⟨r, s⟩, hdefine, heq⟩ := Option.map_eq_some_iff.mp hrun
  obtain ⟨rfl, htag⟩ := Prod.mk.inj heq
  have hglobal := Reachable.step (.start .silent) .global
  have hchild := hglobal.step (.child List.mem_cons_self)
  have hdefined := hchild.step (.evaluate List.mem_cons_self hdefine)
  have hnative := hdefined.step (.plain (v := .native .array) trivial)
  obtain ⟨σ, hσ, hvalues, rfl⟩ : ∃ σ : Session, σ.Reachable ∧
      σ.values = [.text "x", .native .array, .array 0 [.text "x"]] ∧ σ.state = s :=
    ⟨_, hnative.step (.plain (v := .text "x") trivial), rfl, rfl⟩
  have hold : σ.Occurs (.array 0 [.text "x"]) := .inr ⟨_, by simp [hvalues], .self⟩
  have hmoment : σ.Moment ⟨.yield (.text "x"), [.argument (.native .array) [] [] 0], σ.state⟩ :=
    .first (.apply (by simp [hvalues]) (by simp [hvalues])) rfl rfl
  have hcreates : Config.Creates ⟨.yield (.text "x"), [.argument (.native .array) [] [] 0], σ.state⟩
      (.array 1 [.text "x"]) := ⟨_, _, rfl, htag ▸ .array⟩
  obtain ⟨hcoherent, hmoments, -⟩ := identities_coherent hσ
  obtain ⟨-, -, hfresh⟩ := hmoments _ hmoment
  have hself := hcoherent.self _ hold (Option.some_ne_none 0)
  exact ⟨σ, hσ, hold, hself, _, hmoment, hcreates, ((hfresh _ hcreates).2 _ (.inr hold)).1⟩

end Session

end Egg
