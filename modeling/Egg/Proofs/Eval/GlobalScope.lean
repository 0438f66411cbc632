import Egg.Proofs.Eval.Pieces
import Egg.Proofs.Eval.Sequencing
import Egg.Proofs.Scope.Chain
import Mathlib

/-!
# The outermost scope of programs

Programs are run in a scope of their own inside of the outermost one. There they find the names that
every program finds, and they may assign to these names, but they can neither add a name to the
outermost scope nor take one away. For nothing is ever evaluated in it: what stands at top level is
evaluated in the scope of the programs, a body in a new scope, and no function is made elsewhere
(`Program.global_scope_sealed`). So all that is defined at top level is kept in the scope of the
programs, from one program to the next.
-/

namespace Egg

open Machine

/-! ## Sequences of runs -/

/-- Running the sources one after another in the scope, each to its end, be it a value or an error,
leads from one state to the other. -/
inductive Program.Series (scope : ScopeId) : State → List String → State → Prop where
  | nil {s : State} : Series scope s [] s
  | cons {s s₁ s' : State} {source : String} {rest : List String} {steps : Nat}
      {r : Except RunError Value} (hrun : Program.runIn steps source scope s = some (r, s₁))
      (h : Series scope s₁ rest s') : Series scope s (source :: rest) s'

namespace Program

variable {scope : ScopeId} {s s' : State} {sources : List String}

theorem start_eq_ok {source : String} {c : Config} (h : start source scope s = .ok c) :
    ∃ e, c = .initial e scope s := by
  unfold start at h
  split at h
  · next e _ =>
    cases h
    exact ⟨e, rfl⟩
  · cases h

/-- What becomes of the state in a run is what becomes of it in an evaluation, if there is one. -/
theorem state_of_runIn {steps : Nat} {source : String} {r : Except RunError Value}
    (h : runIn steps source scope s = some (r, s')) :
    s' = s ∨ ∃ e, s' = (run steps (.initial e scope s)).state := by
  unfold runIn at h
  split at h
  · next c hc =>
    obtain ⟨e, rfl⟩ := start_eq_ok hc
    exact .inr ⟨e, (Progress.state_of_outcome? h).symm⟩
  · cases h
    exact .inl rfl

/-- What every evaluation in the scope keeps, a series of runs keeps. -/
theorem Series.keeps {P : State → Prop}
    (hrun : ∀ s e n, P s → P (run n (.initial e scope s)).state)
    (h : Series scope s sources s') (hs : P s) : P s' := by
  induction h with
  | nil => exact hs
  | cons hfirst _ ih =>
    apply ih
    rcases state_of_runIn hfirst with rfl | ⟨e, rfl⟩
    · exact hs
    · exact hrun _ e _ hs

theorem Series.extends (h : Series scope s sources s') : s'.heap.Extends s.heap := by
  refine h.keeps (P := fun t => t.heap.Extends s.heap) (fun t e n ht => ?_) (.refl _)
  exact (run_extends n (.initial e scope t)).trans ht

end Program

/-! ## Scopes that own certain names -/

namespace Heap

/-- The names that a scope owns are those of the given bindings. -/
def OwnsJust (h : Heap) (id : ScopeId) (b : Bindings) : Prop :=
  ∀ name, (h.bindingAt id name).isSome = b.binds name

theorem bindingAt_define_of_scope_ne {id j : ScopeId} (hne : j ≠ id) (h : Heap) (name m : Name)
    (v : Value) : (h.define id name v).bindingAt j m = h.bindingAt j m := by
  unfold bindingAt
  rw [get?_define, if_neg (Ne.symm hne)]

theorem bindingAt_push_of_lt {h : Heap} {id : ScopeId} (hid : id < h.size) (bindings : Bindings)
    (parent : Option ScopeId) (name : Name) :
    (h.push bindings parent).bindingAt id name = h.bindingAt id name := by
  unfold bindingAt
  rw [get?_push_of_lt hid]

theorem Extends.exists_bindingAt {h h' : Heap} (hext : h'.Extends h) {id : ScopeId} {name : Name}
    (hb : ∃ v, h.bindingAt id name = some v) : ∃ v, h'.bindingAt id name = some v := by
  obtain ⟨v, hv⟩ := hb
  obtain ⟨scope, hs, hfind⟩ := Option.bind_eq_some_iff.mp hv
  obtain ⟨scope', hs', -, hnames⟩ := hext id scope hs
  have hbinds : scope'.bindings.binds name = true := hnames name (Bindings.binds_eq_true.mpr ⟨v, hfind⟩)
  rw [bindingAt_of_get? hs']
  exact Bindings.binds_eq_true.mp hbinds

namespace OwnsJust

variable {h : Heap} {id : ScopeId} {b : Bindings}

theorem push (hh : h.OwnsJust id b) (hid : id < h.size) (bindings : Bindings)
    (parent : Option ScopeId) : (h.push bindings parent).OwnsJust id b := by
  intro name
  rw [bindingAt_push_of_lt hid]
  exact hh name

theorem define (hh : h.OwnsJust id b) {j : ScopeId} (hne : j ≠ id) (name : Name) (v : Value) :
    (h.define j name v).OwnsJust id b := by
  intro m
  rw [bindingAt_define_of_scope_ne (Ne.symm hne)]
  exact hh m

/-- An assignment makes no binding, wherever it takes place. -/
theorem assign (hh : h.OwnsJust id b) {j owner : ScopeId} {name : Name}
    (ho : h.owner? j name = some owner) (v : Value) : (h.define owner name v).OwnsJust id b := by
  intro m
  rw [owner?_eq_firstOwner?] at ho
  have howner := lt_size_of_firstOwner? ho
  obtain ⟨-, w, hw⟩ := firstOwner?_eq_some_iff.mp ho
  rw [bindingAt_define howner]
  split
  · next heq =>
    obtain ⟨rfl, rfl⟩ := heq
    rw [← hh m, hw]
    rfl
  · exact hh m

end OwnsJust

end Heap

/-! ## The discipline of the outermost scope -/

/-- No function inside of the value was made in the scope. -/
def Value.MadeElsewhere (id : ScopeId) (v : Value) : Prop :=
  ∀ tag c, (Value.function tag c).Inside v → c.scope ≠ id

namespace Value

variable {id : ScopeId}

theorem IsPlain.madeElsewhere {v : Value} (hv : v.IsPlain) : v.MadeElsewhere id := by
  intro tag c hin
  have heq := hv.eq_of_inside hin
  rw [← heq] at hv
  exact hv.elim

theorem Within.madeElsewhere {v : Value} (hv : v.Within id) : v.MadeElsewhere id := by
  intro tag c hin
  induction hv with
  | number | text | bool | native => cases hin
  | array _ ih =>
    cases hin with
    | item hmem hin => exact ih _ hmem hin
  | function hlt =>
    cases hin
    exact Nat.ne_of_lt hlt

theorem madeElsewhere_array {tag : Tag} {items : List Value} :
    (array tag items).MadeElsewhere id ↔ ∀ v ∈ items, v.MadeElsewhere id := by
  constructor
  · intro h v hv tag' c hin
    exact h tag' c (.item hv hin)
  · intro h tag' c hin
    cases hin with
    | item hv hin => exact h _ hv tag' c hin

end Value

/-- Expressions are evaluated in the scope of the programs, or in scopes that are not among the first
`base` ones, and no function that was made in the outermost scope is come upon. -/
def Discipline.topLevel (outermost program base : ScopeId) (hne : program ≠ outermost)
    (hlt : outermost < base) : Discipline where
  base := base
  place _ id := id = program ∨ base ≤ id
  allows _ _ id := id = program ∨ base ≤ id
  value _ v := v.MadeElsewhere outermost
  place_mono _ h := h
  allows_mono _ h := h
  value_mono _ h := h
  place_of_allows h := h
  number := Value.IsPlain.madeElsewhere trivial
  bool := Value.IsPlain.madeElsewhere trivial
  text _ := Value.IsPlain.madeElsewhere trivial
  array h := Value.madeElsewhere_array.mpr h
  item h hv := Value.madeElsewhere_array.mp h _ hv
  function h := by
    intro tag c hin
    cases hin
    rcases h with rfl | hle
    · exact hne
    · exact (Nat.lt_of_lt_of_le hlt hle).ne'
  call _ h := ⟨h, fun _ _ => h⟩
  form h _ _ := h
  body hbase _ _ _ := .inr hbase

/-- A step makes no binding in the outermost scope. -/
theorem Config.Changes.ownsJust {outermost program base : ScopeId} {hne : program ≠ outermost}
    {hlt : outermost < base} {b : Bindings} {c : Config} {h : Heap} (hch : c.Changes h)
    (hc : c.Obeys (.topLevel outermost program base hne hlt))
    (hown : c.state.heap.OwnsJust outermost b) : h.OwnsJust outermost b := by
  have hsize : outermost < c.state.heap.size := Nat.lt_of_lt_of_le hlt hc.state.base
  cases hch with
  | nothing => exact hown
  | callEmpty | call => exact hown.push hsize _ _
  | @define v name scope stack s =>
    obtain ⟨e, hplace⟩ := hc.stack _ List.mem_cons_self
    have hscope : scope ≠ outermost := by
      rcases hplace with rfl | hle
      · exact hne
      · exact (Nat.lt_of_lt_of_le hlt hle).ne'
    exact hown.define hscope name v
  | assign ho => exact hown.assign ho _

/-! ## States between two runs -/

/-- The outermost scope has the names that every program finds, no function was made in it, and the
scope of the programs is another one. -/
structure State.Sealed (outermost program : ScopeId) (s : State) : Prop where
  apart : program ≠ outermost
  outermost_lt : outermost < s.heap.size
  program_lt : program < s.heap.size
  functions : ∀ v, s.heap.Binds v → v.MadeElsewhere outermost
  names : s.heap.OwnsJust outermost .global

namespace State.Sealed

variable {outermost program : ScopeId} {s : State}

theorem obeys (h : s.Sealed outermost program) (e : Expr) :
    (Config.initial e program s).Obeys
      (.topLevel outermost program s.heap.size h.apart h.outermost_lt) :=
  ⟨⟨Nat.le_refl _, h.functions⟩, .inl rfl, by simp [Config.initial]⟩

/-- At every moment of a run the outermost scope is sealed. -/
theorem run (h : s.Sealed outermost program) (e : Expr) (n : Nat) :
    (run n (.initial e program s)).state.Sealed outermost program := by
  have hobeys := run_obeys n (h.obeys e)
  have hsize := (run_extends n (.initial e program s)).size_le
  refine ⟨h.apart, Nat.lt_of_lt_of_le h.outermost_lt hsize, Nat.lt_of_lt_of_le h.program_lt hsize,
    hobeys.state.binds, ?_⟩
  exact run_keeps (fun _ _ hc hch hown => hch.ownsJust hc hown) n (h.obeys e) h.names

theorem series (h : s.Sealed outermost program) {sources : List String} {s' : State}
    (hseries : Program.Series program s sources s') : s'.Sealed outermost program :=
  hseries.keeps (fun _ e n ht => ht.run e n) h

end State.Sealed

theorem State.sealed_pushProgram {s : State} (hs : s.heap.WellFormed) :
    s.pushProgram.2.Sealed s.pushGlobal.1 s.pushProgram.1 := by
  have hsize : s.pushProgram.2.heap.size = s.heap.size + 2 := by
    simp [pushProgram, pushChild, pushGlobal]
  have houter : s.pushGlobal.1 = s.heap.size := rfl
  have hprogram : s.pushProgram.1 = s.heap.size + 1 := by
    simp [pushProgram, pushChild, pushGlobal]
  refine ⟨?_, ?_, s.pushProgram_lt, ?_, ?_⟩
  · rw [houter, hprogram]
    exact Nat.succ_ne_self _
  · rw [houter, hsize]
    exact Nat.lt_add_of_pos_right Nat.two_pos
  · intro v hv
    rcases Heap.Binds.of_push hv with ⟨name, hv⟩ | hv
    · cases hv
    rcases Heap.Binds.of_push hv with ⟨name, hv⟩ | hv
    · exact (Bindings.isPlain_global hv).madeElsewhere
    · exact (hs.within_of_binds hv).madeElsewhere
  · intro name
    have hlt : s.heap.size < (s.heap.push .global none).size := by simp
    show (((s.heap.push .global none).push .empty _).bindingAt s.heap.size name).isSome = _
    rw [Heap.bindingAt_push_of_lt hlt, Heap.bindingAt, Heap.get?_push, if_pos rfl]
    rfl

/-! ## Definitions -/

namespace Machine

variable {scope : ScopeId} {s s' : State} {r : Result}

/-- A definition evaluates its value and then binds the name. -/
theorem ends_define {name : Name} {e : Expr} :
    (evaluate (Form.define name e).toExpr scope [] s).Ends r s' ↔
      ∃ r₁ s₁, (evaluate e scope [] s).Ends r₁ s₁ ∧
        AndThen r₁ s₁ (fun v s₁ r s' => r = .ok v ∧ s' = s₁.define scope name v) r s' := by
  rw [ends_toExpr]
  exact ends_evaluate_frame fun _ _ => ends_yield

end Machine

/-- When a definition has ended well, its scope owns the name. -/
theorem Program.exists_bindingAt_of_define {steps : Nat} {name : Name} {e : Expr} {scope : ScopeId}
    {s s' : State} {v : Value}
    (h : Program.evaluate steps (Form.define name e).toExpr scope s = some (.ok v, s'))
    (hscope : scope < s.heap.size) : ∃ w, s'.heap.bindingAt scope name = some w := by
  obtain ⟨r, hr, hends⟩ := evaluate_iff_ends.mp ⟨steps, h⟩
  obtain ⟨r₁, s₁, ⟨n, hn⟩, hnext⟩ := ends_define.mp hends
  cases r₁ with
  | error x =>
    obtain ⟨rfl, -⟩ := hnext
    cases hr
  | ok w =>
    obtain ⟨-, rfl⟩ := hnext
    have hrun : run n (.initial e scope s) = .finished (.ok w) s₁ := hn
    have hsize := (run_extends n (.initial e scope s)).size_le
    rw [hrun] at hsize
    have hlt : scope < s₁.heap.size := Nat.lt_of_lt_of_le hscope hsize
    refine ⟨w, ?_⟩
    rw [State.heap_define, Heap.bindingAt_define hlt, if_pos ⟨rfl, rfl⟩]

theorem Machine.extends_of_le {m n : Nat} (hmn : m ≤ n) (c : Config) :
    (run n c).state.heap.Extends (run m c).state.heap := by
  obtain ⟨k, rfl⟩ := Nat.exists_eq_add_of_le hmn
  rw [Machine.run_add]
  cases run m c with
  | running c₁ => exact run_extends k c₁
  | finished r s => exact .refl _

/-- From the moment on at which a definition returns, its scope owns the name. -/
theorem Call.Returns.owns {c : Config} {k : Call} (hreturns : k.Returns c) (hk : c.Makes k)
    {name : Name} {e : Expr} {scope : ScopeId}
    (htask : k.task = .evaluate (Form.define name e).toExpr scope)
    (hscope : scope < c.state.heap.size) :
    ∃ m, ∀ n ≥ m, ∃ w, (run n c).state.heap.bindingAt scope name = some w := by
  obtain ⟨c', hrun, -, hstate⟩ := hk
  have hsize := (run_extends k.time c).size_le
  rw [hrun, Progress.state, hstate] at hsize
  obtain ⟨v, s', ⟨steps, hends⟩, m, -, hm⟩ := hreturns
  rw [htask] at hends
  have howns := Program.exists_bindingAt_of_define hends (Nat.lt_of_lt_of_le hscope hsize)
  refine ⟨m, fun n hn => ?_⟩
  have hext := Machine.extends_of_le hn c
  rw [hm] at hext
  exact hext.exists_bindingAt howns

/-! ## The outermost scope is sealed -/

/-- Let any sources be run, one after another and with whatever results, in a new scope for programs
inside of a new outermost one. Then and at each moment of the next run, the outermost scope owns just
the names that every program finds, and no function that is held anywhere was made in it. No
expression is evaluated in it, but each in the scope of the programs or in a scope that a call in
this run has made. And what is defined in the scope of the programs is owned by that scope from then
on, also in all later runs. -/
theorem Program.global_scope_sealed {s₀ s : State} {sources : List String}
    (hs₀ : s₀.heap.WellFormed)
    (hseries : Series s₀.pushProgram.1 s₀.pushProgram.2 sources s) :
    (s.heap.OwnsJust s₀.pushGlobal.1 .global ∧
      ∀ v, s.heap.Binds v → v.MadeElsewhere s₀.pushGlobal.1) ∧
    ∀ source c, start source s₀.pushProgram.1 s = .ok c →
      (∀ n, (run n c).state.heap.OwnsJust s₀.pushGlobal.1 .global ∧
        ∀ tag f, (run n c).Occurs (.function tag f) → f.scope ≠ s₀.pushGlobal.1) ∧
      (∀ n e id stack s₁, run n c = .running ⟨.evaluate e id, stack, s₁⟩ →
        id ≠ s₀.pushGlobal.1 ∧ (id = s₀.pushProgram.1 ∨ s.heap.size ≤ id)) ∧
      ∀ k name e, c.Makes k → k.task = .evaluate (Form.define name e).toExpr s₀.pushProgram.1 →
        k.Returns c →
        (∃ m, ∀ n ≥ m, ∃ w, (run n c).state.heap.bindingAt s₀.pushProgram.1 name = some w) ∧
        ∀ steps r s₁ later s₂, runIn steps source s₀.pushProgram.1 s = some (r, s₁) →
          Series s₀.pushProgram.1 s₁ later s₂ →
          ∃ w, s₂.heap.bindingAt s₀.pushProgram.1 name = some w := by
  have hs := (State.sealed_pushProgram hs₀).series hseries
  refine ⟨⟨hs.names, hs.functions⟩, fun source c hc => ?_⟩
  obtain ⟨e₀, rfl⟩ := start_eq_ok hc
  refine ⟨fun n => ⟨(hs.run e₀ n).names, ?_⟩, ?_, ?_⟩
  · rintro tag f ⟨w, hkeeps, hin⟩
    rcases hkeeps with hbound | hmem
    · exact (hs.run e₀ n).functions w hbound tag f hin
    · exact (run_obeys n (hs.obeys e₀)).values w hmem tag f hin
  · intro n e id stack s₁ hrun
    have hobeys := run_obeys n (hs.obeys e₀)
    rw [hrun] at hobeys
    have hplace : id = s₀.pushProgram.1 ∨ s.heap.size ≤ id := hobeys.control
    refine ⟨?_, hplace⟩
    rcases hplace with rfl | hle
    · exact hs.apart
    · exact (Nat.lt_of_lt_of_le hs.outermost_lt hle).ne'
  · intro k name e hk htask hreturns
    obtain ⟨m, hm⟩ := hreturns.owns hk htask hs.program_lt
    refine ⟨⟨m, hm⟩, fun steps r s₁ later s₂ hrun hlater => ?_⟩
    -- the run may be over long before `steps`, and the state does not change after that
    have hend : s₁ = (run (m + steps) (.initial e₀ s₀.pushProgram.1 s)).state := by
      have hmono := runIn_mono (Nat.le_add_left steps m) hrun
      rw [runIn, hc] at hmono
      exact (Progress.state_of_outcome? hmono).symm
    refine hlater.extends.exists_bindingAt ?_
    rw [hend]
    exact hm _ (Nat.le_add_right m steps)

/-- A function that assigns to `print` is called by a program that then fails. A later one finds the new
value and gives it a name of its own. -/
theorem Program.global_scope_sealed_after_assignment :
    ∃ s s₁, Series 1 (State.initial .silent).pushProgram.2
        ["define(f, fun(x, set(print, x)))", "do(f(\"a\"), z)"] s ∧
      s.heap.OwnsJust 0 .global ∧
      runIn 20 "define(y, print)" 1 s = some (.ok (.text "a"), s₁) ∧
      ∃ w, s₁.heap.bindingAt 1 "y" = some w := by
  have hruns : ((runIn 20 "define(f, fun(x, set(print, x)))" 1
        (State.initial .silent).pushProgram.2).bind fun defined =>
      (runIn 40 "do(f(\"a\"), z)" 1 defined.2).bind fun failed =>
        (runIn 20 "define(y, print)" 1 failed.2).map fun last => (failed.1, last.1)) =
      some (.error (.evaluation (.undefinedVariable "z")), .ok (.text "a")) := by
    cbv
  obtain ⟨⟨r, t⟩, hdefine, hrest⟩ := Option.bind_eq_some_iff.mp hruns
  obtain ⟨⟨r', s⟩, hfail, hrest⟩ := Option.bind_eq_some_iff.mp hrest
  obtain ⟨⟨r'', s₁⟩, hlast, heq⟩ := Option.map_eq_some_iff.mp hrest
  obtain ⟨rfl, rfl⟩ := Prod.mk.inj heq
  have hseries : Series 1 (State.initial .silent).pushProgram.2
      ["define(f, fun(x, set(print, x)))", "do(f(\"a\"), z)"] s := .cons hdefine (.cons hfail .nil)
  have hempty : (State.initial .silent).heap.WellFormed := Heap.wellFormed_empty
  obtain ⟨⟨hnames, -⟩, hnext⟩ := global_scope_sealed hempty hseries
  have hparse : Syntax.parse "define(y, print)" = .ok (Form.define "y" (.word "print")).toExpr := by
    cbv
  have hstart : start "define(y, print)" 1 s =
      .ok (.initial (Form.define "y" (.word "print")).toExpr 1 s) := by
    rw [start, hparse]
    rfl
  -- the definition is the whole program, so it returns because the program ends well
  let k : Call := ⟨0, .evaluate (Form.define "y" (.word "print")).toExpr 1, s, []⟩
  have hk : (Config.initial (Form.define "y" (.word "print")).toExpr 1 s).Makes k :=
    ⟨_, rfl, rfl, rfl⟩
  have hreturns : k.Returns (.initial (Form.define "y" (.word "print")).toExpr 1 s) := by
    have hend := hlast
    rw [runIn, hstart] at hend
    obtain ⟨r, hr, hfinished⟩ := Progress.exists_of_outcome? hend
    refine (hk.returns_or_fails hfinished).resolve_right ?_
    rintro ⟨x, rfl, -⟩
    cases hr
  obtain ⟨-, -, hdefined⟩ := hnext _ _ hstart
  obtain ⟨-, hlater⟩ := hdefined k "y" (.word "print") hk rfl hreturns
  exact ⟨s, s₁, hseries, hnames, hlast, hlater _ _ _ _ _ hlast .nil⟩

end Egg
