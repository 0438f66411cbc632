import Egg.Proofs.Eval.Lockstep
import Egg.Proofs.Scope.Chain
import Mathlib

/-!
# Names that are not mentioned do not matter

The bindings of a name are looked at only where the name is written: as a variable, as the target of
a definition or an assignment, or as a parameter. So if neither an expression nor any function that
it might come upon mentions the name, it is evaluated in the same way whatever the name is bound to,
and in whichever scopes (`Program.unmentioned_name_irrelevant`). The bindings themselves stay as they
are. Only functions that are bound to the name itself may mention it, for nothing comes upon them.

The word of a special form is not looked up, so it is no mention of a name.
-/

namespace Egg

open Machine

namespace Expr

@[simp]
theorem uses_text {name : Name} {t : String} : ¬ (text t).Uses name := nofun

@[simp]
theorem uses_word {name m : Name} : (word m).Uses name ↔ m = name := by
  constructor
  · rintro ⟨⟩
    rfl
  · rintro rfl
    exact .word

@[simp]
theorem uses_apply {name : Name} {f : Expr} {args : List Expr} :
    (apply f args).Uses name ↔ (f.IsOrdinary ∧ f.Uses name) ∨ ∃ a ∈ args, a.Uses name := by
  constructor
  · intro h
    cases h with
    | operator hf h => exact .inl ⟨hf, h⟩
    | argument ha h => exact .inr ⟨_, ha, h⟩
  · rintro (⟨hf, h⟩ | ⟨a, ha, h⟩)
    · exact .operator hf h
    · exact .argument ha h

end Expr

/-! ## The bindings of one name -/

/-- The value is bound to another name than the given one, or inside of such a value. -/
def Heap.HoldsApartFrom (h : Heap) (name : Name) (w : Value) : Prop :=
  ∃ id m v, m ≠ name ∧ h.bindingAt id m = some v ∧ w.Inside v

/-- No function mentions the name, except for such as are bound to it. -/
def Heap.Ignores (h : Heap) (name : Name) : Prop :=
  ∀ tag c, h.HoldsApartFrom name (.function tag c) → name ∉ c.params ∧ ¬ c.body.Uses name

/-- States that are the same but for the bindings of a name. -/
structure State.SameExcept (name : Name) (s t : State) : Prop where
  /-- The same scopes are there, inside of the same ones. -/
  parents : ∀ id, (s.heap.get? id).map (·.parent) = (t.heap.get? id).map (·.parent)
  others : ∀ id m, m ≠ name → s.heap.bindingAt id m = t.heap.bindingAt id m
  sink : s.sink = t.sink
  nextTag : s.nextTag = t.nextTag

namespace Heap

theorem bindingAt_define_of_ne {name m : Name} (hne : m ≠ name) (h : Heap) (id j : ScopeId)
    (v : Value) : (h.define id name v).bindingAt j m = h.bindingAt j m := by
  unfold bindingAt
  rw [get?_define]
  split
  · cases h.get? j with
    | none => rfl
    | some scope =>
      show (scope.bindings.insert name v).find? m = scope.bindings.find? m
      rw [Bindings.find?_insert, if_neg hne]
  · rfl

theorem bindingAt_push_of_find?_eq_none {bindings : Bindings} {name : Name}
    (hname : bindings.find? name = none) (h : Heap) (parent : Option ScopeId) (j : ScopeId) :
    (h.push bindings parent).bindingAt j name = h.bindingAt j name := by
  unfold bindingAt
  rw [get?_push]
  split
  · next hj =>
    have hnew : h.get? j = none := get?_eq_none_iff.mpr (Nat.le_of_eq hj.symm)
    rw [hnew]
    exact hname
  · rfl

theorem Ignores.define {h : Heap} {name : Name} (hh : h.Ignores name) (id : ScopeId) (m : Name)
    {v : Value}
    (hv : ∀ tag c, (Value.function tag c).Inside v → name ∉ c.params ∧ ¬ c.body.Uses name) :
    (h.define id m v).Ignores name := by
  rintro tag c ⟨j, m', w, hm', hw, hin⟩
  obtain ⟨scope, hscope, hfind⟩ := Option.bind_eq_some_iff.mp hw
  obtain ⟨old, hold, -, hbound⟩ := exists_of_get?_define hscope
  rcases hbound m' with hsame | ⟨-, hnew⟩
  · have hold' : h.bindingAt j m' = some w :=
      (bindingAt_of_get? hold m').trans (hsame.symm.trans hfind)
    exact hh tag c ⟨j, m', w, hm', hold', hin⟩
  · obtain rfl := Option.some.inj (hfind.symm.trans hnew)
    exact hv tag c hin

end Heap

/-! ## All names but one -/

/-- Everything stays in its place, and all names matter but the given one. -/
def Correspondence.except (name : Name) (sink : Sink) : Correspondence where
  scope a b := a = b
  mark x y := x = y
  scope_iff h h' := h.congr h'
  mark_iff h h' := h.congr h'
  name m := m ≠ name
  left := sink
  right := sink

variable {name : Name} {sink : Sink}

theorem Correspondence.covers_except {e : Expr} (he : ¬ e.Uses name) :
    (Correspondence.except name sink).Covers e := by
  rintro m hm rfl
  exact he hm

theorem Value.Alike.eq_of_except {v w : Value} (h : v.Alike (.except name sink) w) : v = w := by
  induction h with
  | number | text | bool | native => rfl
  | @function x y c c' hmark hparams h =>
    obtain rfl := hmark
    have hclosure : c = c' := by
      cases c
      cases c'
      exact Closure.mk.injEq .. |>.mpr ⟨hparams, h.body, h.scope⟩
    rw [hclosure]
  | @array x y items items' hmark hlength _ ih =>
    obtain rfl := hmark
    have hitems : List.Forall₂ (· = ·) items items' :=
      List.forall₂_iff_zip.mpr ⟨hlength, fun {v w} hvw => ih (v, w) hvw⟩
    rw [List.forall₂_eq_eq_eq] at hitems
    rw [hitems]

namespace State

variable {s t : State}

theorem SameExcept.refl (s : State) : s.SameExcept name s :=
  ⟨fun _ => rfl, fun _ _ _ => rfl, rfl, rfl⟩

theorem SameExcept.ignores (h : s.SameExcept name t) (hs : s.heap.Ignores name) :
    t.heap.Ignores name := by
  rintro tag c ⟨id, m, v, hm, hv, hin⟩
  exact hs tag c ⟨id, m, v, hm, (h.others id m hm).trans hv, hin⟩

theorem SameExcept.size_eq (h : s.SameExcept name t) : s.heap.size = t.heap.size := by
  have hnone : ∀ id, s.heap.size ≤ id ↔ t.heap.size ≤ id := by
    intro id
    rw [← Heap.get?_eq_none_iff, ← Heap.get?_eq_none_iff, ← Option.map_eq_none_iff (f := Scope.parent),
      h.parents id, Option.map_eq_none_iff]
  exact Nat.le_antisymm ((hnone _).mpr (Nat.le_refl _)) ((hnone _).mp (Nat.le_refl _))

theorem SameExcept.heap_like (h : s.SameExcept name t) (hs : s.heap.Ignores name) (sink : Sink) :
    s.heap.Like Eq (· ≠ name) (Value.Alike (.except name sink)) t.heap where
  unique hab hab' := hab.congr hab'
  scopes := by
    rintro a b rfl
    have hparents := h.parents a
    cases ha : s.heap.get? a with
    | none =>
      rw [ha, Option.map_none, eq_comm, Option.map_eq_none_iff] at hparents
      rw [hparents]
      exact .none
    | some here =>
      rw [ha, Option.map_some, eq_comm, Option.map_eq_some_iff] at hparents
      obtain ⟨there, hb, hparent⟩ := hparents
      rw [hb]
      refine .some ⟨fun m hm => ?_, ?_⟩
      · have hsame := h.others a m hm
        rw [Heap.bindingAt_of_get? ha, Heap.bindingAt_of_get? hb] at hsame
        rw [← hsame]
        cases hfind : here.bindings.find? m with
        | none => exact .none
        | some v =>
          refine .some (Value.like_self (fun _ => rfl) v fun tag c hin => ?_)
          have hholds : s.heap.HoldsApartFrom name (.function tag c) :=
            ⟨a, m, v, hm, (Heap.bindingAt_of_get? ha m).trans hfind, hin⟩
          obtain ⟨hparams, hbody⟩ := hs tag c hholds
          refine ⟨rfl, rfl, fun p hp => ?_, Correspondence.covers_except hbody⟩
          rintro rfl
          exact hparams hp
      · rw [hparent]
        cases here.parent with
        | none => exact .none
        | some p => exact .some rfl
  links := by
    rintro a b here there p q rfl ha hb hp hq
    have hparents := h.parents a
    rw [ha, hb, Option.map_some, Option.map_some, hp, hq] at hparents
    cases hparents
    exact Iff.rfl
  newScopes k := congrArg (· + k) h.size_eq

theorem SameExcept.alike (h : s.SameExcept name t) (hs : s.heap.Ignores name) :
    s.Alike (.except name s.sink) t where
  heap := h.heap_like hs s.sink
  newMarks k := congrArg (· + k) h.nextTag
  printed := by
    refine ⟨"", (Sink.append_empty _).symm, ?_⟩
    rw [← h.sink]
    exact (Sink.append_empty _).symm

theorem Alike.sameExcept (h : s.Alike (.except name sink) t) : s.SameExcept name t where
  parents id := by
    rcases rel_cases (h.heap.scopes (a := id) rfl) with ⟨ha, hb⟩ | ⟨here, there, ha, hb, hscope⟩
    · rw [ha, hb]
    · rw [ha, hb]
      exact congrArg some (rel_eq (fun heq => heq) hscope.parent)
  others id m hm := by
    rcases rel_cases (h.heap.scopes (a := id) rfl) with ⟨ha, hb⟩ | ⟨here, there, ha, hb, hscope⟩
    · unfold Heap.bindingAt
      rw [ha, hb]
    · rw [Heap.bindingAt_of_get? ha, Heap.bindingAt_of_get? hb]
      exact rel_eq (fun hvw => hvw.eq_of_except) (hscope.bindings m hm)
  sink := by
    obtain ⟨text, hs, ht⟩ := h.printed
    exact hs.trans ht.symm
  nextTag := h.newMarks 0

theorem sameExcept_define (s : State) (id : ScopeId) (name : Name) (v : Value) :
    s.SameExcept name (s.define id name v) where
  parents j := by
    rw [heap_define, Heap.get?_define]
    split
    · cases s.heap.get? j <;> rfl
    · rfl
  others j m hm := (Heap.bindingAt_define_of_ne hm s.heap id j v).symm
  sink := rfl
  nextTag := rfl

end State

/-! ## Steps and runs -/

/-- A step binds only names that matter. -/
theorem Config.Changes.bindingAt_of_not_name {ρ : Correspondence} {c d : Config} {h : Heap}
    (hch : c.Changes h) (hcd : c.Alike ρ d) (hname : ¬ ρ.name name) (id : ScopeId) :
    h.bindingAt id name = c.state.heap.bindingAt id name := by
  have hne : ∀ {m}, ρ.name m → name ≠ m := by
    rintro m hm rfl
    exact hname hm
  obtain ⟨hcontrol, hst, hs⟩ := hcd
  cases hch with
  | nothing => rfl
  | callEmpty hn =>
    refine Heap.bindingAt_push_of_find?_eq_none ?_ _ _ id
    exact Bindings.find?_ofList_zip_of_not_mem (by simp [List.length_eq_zero_iff.mp hn]) _
  | call =>
    generalize d.stack = stack' at hst
    cases hst with
    | cons hf _ =>
      cases hf with
      | argument hab hcallee hdone hrest =>
        cases hcallee with
        | function _ _ h =>
          refine Heap.bindingAt_push_of_find?_eq_none ?_ _ _ id
          exact Bindings.find?_ofList_zip_of_not_mem (fun hmem => hname (h.params name hmem)) _
  | define =>
    generalize d.stack = stack' at hst
    cases hst with
    | cons hf _ =>
      cases hf with
      | define hab hm => exact Heap.bindingAt_define_of_ne (hne hm) _ _ id _
  | assign =>
    generalize d.stack = stack' at hst
    cases hst with
    | cons hf _ =>
      cases hf with
      | assign hab hm => exact Heap.bindingAt_define_of_ne (hne hm) _ _ id _

namespace Machine

/-- The bindings of a name that does not matter stay as they are. -/
theorem bindingAt_run_of_not_name {ρ : Correspondence} (n : Nat) {c d : Config} (hcd : c.Alike ρ d)
    (hname : ¬ ρ.name name) (id : ScopeId) :
    (run n c).state.heap.bindingAt id name = c.state.heap.bindingAt id name := by
  have hboth : (∃ q, (run n c).Alike ρ q) ∧
      (run n c).state.heap.bindingAt id name = c.state.heap.bindingAt id name := by
    refine run_invariant (P := fun p => (∃ q, p.Alike ρ q) ∧
      p.state.heap.bindingAt id name = c.state.heap.bindingAt id name) (fun c' h => ?_) n
      ⟨⟨_, .running hcd⟩, rfl⟩
    obtain ⟨⟨q, hq⟩, hkept⟩ := h
    cases hq with
    | running hcd' =>
      refine ⟨⟨_, step_alike hcd'⟩, ?_⟩
      rw [(step_changes c').bindingAt_of_not_name hcd' hname id]
      exact hkept
  exact hboth.2

end Machine

/-! ## Evaluations -/

namespace Program

variable {e : Expr} {s : State}

/-- An evaluation leaves the bindings of a name alone that is not mentioned. -/
theorem bindingAt_of_evaluate {steps : Nat} {scope : ScopeId} {s' : State}
    {r : Except RunError Value} (he : ¬ e.Uses name) (hs : s.heap.Ignores name)
    (h : evaluate steps e scope s = some (r, s')) (id : ScopeId) :
    s'.heap.bindingAt id name = s.heap.bindingAt id name := by
  have hfirst : Config.Alike (.except name s.sink) ⟨.evaluate e scope, [], s⟩
      ⟨.evaluate e scope, [], s⟩ :=
    ⟨.evaluate rfl (Correspondence.covers_except he), .nil, (State.SameExcept.refl s).alike hs⟩
  rw [← Progress.state_of_outcome? h]
  exact bindingAt_run_of_not_name steps hfirst (fun hne => hne rfl) id

/-- Let two states be the same but for the bindings of a name, which may be bound to anything or not
at all, in any scopes. If neither an expression mentions the name nor any function apart from such as
are bound to it, then the expression is evaluated in both states in the same number of steps, or in
neither, to the same value or error. The states afterwards are again the same but for the bindings of
the name, what has been printed included, and these bindings are what they were in either state. -/
theorem unmentioned_name_irrelevant {t : State} (hst : s.SameExcept name t) (he : ¬ e.Uses name)
    (hs : s.heap.Ignores name) (scope : ScopeId) (steps : Nat) :
    (evaluate steps e scope s = none ∧ evaluate steps e scope t = none) ∨
      ∃ r s' t', evaluate steps e scope s = some (r, s') ∧ evaluate steps e scope t = some (r, t') ∧
        s'.SameExcept name t' ∧
        (∀ id, s'.heap.bindingAt id name = s.heap.bindingAt id name) ∧
        (∀ id, t'.heap.bindingAt id name = t.heap.bindingAt id name) := by
  have hrun := run_evaluate_alike steps (hst.alike hs) (a := scope) rfl
    (Correspondence.covers_except he)
  have hkept {r s'} (h : evaluate steps e scope s = some (r, s')) := bindingAt_of_evaluate he hs h
  have hkept' {r t'} (h : evaluate steps e scope t = some (r, t')) :=
    bindingAt_of_evaluate he (hst.ignores hs) h
  unfold evaluate at hkept hkept' ⊢
  generalize run steps ⟨.evaluate e scope, [], s⟩ = p at hrun hkept ⊢
  generalize run steps ⟨.evaluate e scope, [], t⟩ = q at hrun hkept' ⊢
  cases hrun with
  | running => exact .inl ⟨rfl, rfl⟩
  | @finished r r' s' t' hr hstates =>
    obtain rfl : r = r' := by
      cases hr with
      | ok hvw => rw [hvw.eq_of_except]
      | error x => rfl
    exact .inr ⟨_, s', t', rfl, rfl, hstates.sameExcept, hkept rfl, hkept' rfl⟩

/-- A variable with the name of a special form has no part in it, not even if it is bound in the scope
of a function whose body is that form, and to a function that mentions it. -/
theorem unmentioned_name_irrelevant_special_word :
    ∃ s t : State,
      s.heap.lookup? 1 "f" = some (.function 0 ⟨["x"], .apply (.word "do") [.word "x"], 1⟩) ∧
      s.heap.lookup? 1 "do" = none ∧
      t.heap.lookup? 1 "do" = some (.function 7 ⟨["do"], .word "do", 1⟩) ∧
      s.SameExcept "do" t ∧ ¬ (Expr.apply (.word "f") [.text "a"]).Uses "do" ∧ s.heap.Ignores "do" ∧
      ∃ s' t', evaluate 20 (.apply (.word "f") [.text "a"]) 1 s = some (.ok (.text "a"), s') ∧
        evaluate 20 (.apply (.word "f") [.text "a"]) 1 t = some (.ok (.text "a"), t') ∧
        s'.SameExcept "do" t' := by
  let f : Closure := ⟨["x"], .apply (.word "do") [.word "x"], 1⟩
  let s : State := (State.initial .silent).pushProgram.2.define 1 "f" (.function 0 f)
  have hst := s.sameExcept_define 1 "do" (.function 7 ⟨["do"], .word "do", 1⟩)
  have he : ¬ (Expr.apply (.word "f") [.text "a"]).Uses "do" := by simp
  have hbody : ¬ f.body.Uses "do" := by
    have hdo : ¬ (Expr.word "do").IsOrdinary := fun h => h .sequence rfl
    simp [f, hdo]
  have hs : s.heap.Ignores "do" := by
    refine Heap.Ignores.define ?_ 1 "f" fun tag c hin => ?_
    · -- nothing but native functions and booleans is bound in the scopes of a new program
      rintro tag c ⟨id, m, v, -, hv, hin⟩
      rcases id with _ | _ | id
      · have hplain := Bindings.isPlain_global hv
        cases hin with
        | self => cases hplain
        | item => cases hplain
      · cases hv
      · cases hv
    · cases hin
      exact ⟨by decide, hbody⟩
  have hvalue : (evaluate 20 (.apply (.word "f") [.text "a"]) 1 s).map Prod.fst =
      some (.ok (.text "a")) := by cbv
  refine ⟨s, _, by cbv, by cbv, by cbv, hst, he, hs, ?_⟩
  rcases unmentioned_name_irrelevant hst he hs 1 20 with
    ⟨hnone, -⟩ | ⟨r, s', t', hr, hr', hst', -⟩
  · rw [hnone] at hvalue
    cases hvalue
  · rw [hr] at hvalue
    cases hvalue
    exact ⟨s', t', hr, hr', hst'⟩

end Program

end Egg
