import Egg.Proofs.Eval.Provenance
import Egg.Proofs.Eval.Reachability
import Egg.Proofs.Syntax.RoundTrip
import Mathlib

/-!
# Values are made of the pieces of a program

A program cannot make expressions, texts or names: its functions have the parameters and bodies that
are written in it, its texts are the literals in it, and what it binds are names that are written in
it. This holds of everything that is held at any moment of a run (`Program.run_made_of_pieces`), and
not only of the expression that is evaluated there, since the body of a function is evaluated later
and elsewhere.
-/

namespace Egg

open Machine

/-! ## Pieces -/

/-- All functions inside of the value are written in the program, and so are all texts. -/
structure Value.MadeOf (P : Expr) (v : Value) : Prop where
  functions : ∀ tag c, (function tag c).Inside v →
    (Form.function c.params c.body).toExpr.PartOf P
  texts : ∀ t, (text t).Inside v → (Expr.text t).PartOf P

/-- The name is one that every program finds, or it is written in the program. -/
def Expr.Knows (P : Expr) (name : Name) : Prop :=
  Bindings.global.binds name = true ∨ (Expr.word name).PartOf P

/-- The program knows all names that are bound in the heap. -/
def Heap.NamedBy (P : Expr) (h : Heap) : Prop :=
  ∀ id scope name v, h.get? id = some scope → scope.bindings.find? name = some v → P.Knows name

variable {P : Expr}

namespace Value

theorem madeOf_array {tag : Tag} {items : List Value} :
    (array tag items).MadeOf P ↔ ∀ v ∈ items, v.MadeOf P := by
  constructor
  · intro h v hv
    exact ⟨fun tag' c hin => h.functions tag' c (.item hv hin), fun t hin => h.texts t (.item hv hin)⟩
  · intro h
    refine ⟨fun tag' c hin => ?_, fun t hin => ?_⟩
    · cases hin with
      | item hv hin => exact (h _ hv).functions tag' c hin
    · cases hin with
      | item hv hin => exact (h _ hv).texts t hin

theorem madeOf_function {tag : Tag} {c : Closure} :
    (function tag c).MadeOf P ↔ (Form.function c.params c.body).toExpr.PartOf P := by
  constructor
  · intro h
    exact h.functions tag c .self
  · intro h
    refine ⟨fun tag' c' hin => ?_, fun t hin => ?_⟩
    · cases hin
      exact h
    · cases hin

theorem madeOf_text {t : String} : (text t).MadeOf P ↔ (Expr.text t).PartOf P := by
  constructor
  · intro h
    exact h.texts t .self
  · intro h
    refine ⟨fun tag c hin => ?_, fun t' hin => ?_⟩
    · cases hin
    · cases hin
      exact h

theorem madeOf_number (n : Number) : (number n).MadeOf P := ⟨nofun, nofun⟩

theorem madeOf_bool (b : Bool) : (bool b).MadeOf P := ⟨nofun, nofun⟩

theorem madeOf_native (b : Builtin) : (native b).MadeOf P := ⟨nofun, nofun⟩

/-- Places and marks do not count. -/
theorem Alike.madeOf {ρ : Correspondence} {v w : Value} (h : v.Alike ρ w) (hw : w.MadeOf P) :
    v.MadeOf P := by
  induction h with
  | number | text | bool | native => exact hw
  | @array x y items items' hmark hlength _ ih =>
    refine madeOf_array.mpr fun v hv => ?_
    rw [← List.map_fst_zip (Nat.le_of_eq hlength)] at hv
    obtain ⟨⟨v, w⟩, hvw, rfl⟩ := List.mem_map.mp hv
    exact ih (v, w) hvw (madeOf_array.mp hw w (List.of_mem_zip hvw).2)
  | function _ hparams h =>
    have hform := madeOf_function.mp hw
    rw [← hparams, ← h.body] at hform
    exact madeOf_function.mpr hform

end Value

theorem Bindings.madeOf_global {name : Name} {v : Value} (h : global.find? name = some v) :
    v.MadeOf P := by
  have hmem := mem_of_find?_ofList h
  simp only [List.mem_cons, Prod.mk.injEq, List.mem_map] at hmem
  rcases hmem with ⟨-, rfl⟩ | ⟨-, rfl⟩ | ⟨b, -, -, rfl⟩
  · exact Value.madeOf_bool _
  · exact Value.madeOf_bool _
  · exact Value.madeOf_native b

/-! ## The discipline of pieces -/

/-- Only parts of the program are evaluated, and only values that are made of its pieces are come
upon. -/
def Discipline.pieces (P : Expr) : Discipline where
  base := 0
  place _ _ := True
  allows _ e _ := e.PartOf P
  value _ v := v.MadeOf P
  place_mono _ h := h
  allows_mono _ h := h
  value_mono _ h := h
  place_of_allows _ := trivial
  number := Value.madeOf_number _
  bool := Value.madeOf_bool _
  text h := Value.madeOf_text.mpr h
  array h := Value.madeOf_array.mpr h
  item h hv := Value.madeOf_array.mp h _ hv
  function h := Value.madeOf_function.mpr h
  call _ h := ⟨(Expr.PartOf.operator .self).trans h, fun _ ha => (Expr.PartOf.argument ha .self).trans h⟩
  form h _ he := (Form.outsideFunctions_of_mem_parts he).partOf.trans h
  body _ h _ _ := by
    refine (Expr.PartOf.argument ?_ .self).trans (Value.madeOf_function.mp h)
    simp [Form.args]

theorem Progress.Obeys.state {d : Discipline} {p : Progress} (h : p.Obeys d) : p.state.Obeys d := by
  cases p with
  | running c => exact Config.Obeys.state h
  | finished r s => exact h.1

/-- The values outside of the scopes are such as may be come upon. -/
theorem Progress.Obeys.values {d : Discipline} {p : Progress} (h : p.Obeys d) :
    ∀ v ∈ p.values, d.value p.state v := by
  intro v hv
  cases p with
  | running c =>
    rcases List.mem_append.mp hv with hv | hv
    · have hcontrol := h.control
      cases hc : c.control with
      | evaluate e scope =>
        rw [hc] at hv
        cases hv
      | yield w =>
        rw [hc] at hv hcontrol
        obtain rfl := List.mem_singleton.mp hv
        exact hcontrol
    · obtain ⟨frame, hframe, hv⟩ := List.mem_flatMap.mp hv
      have hf := h.stack frame hframe
      cases frame with
      | argument callee done rest scope =>
        obtain ⟨hcallee, hdone, -⟩ := hf
        exact List.forall_mem_cons.mpr ⟨hcallee, hdone⟩ v hv
      | branch | loopTest | loopBody | sequence | define | assign | operator => cases hv
  | finished r s =>
    cases r with
    | ok w =>
      obtain rfl := List.mem_singleton.mp hv
      exact h.2 v rfl
    | error x => cases hv

/-! ## Names -/

namespace Heap.NamedBy

variable {h : Heap}

theorem define (hh : h.NamedBy P) (id : ScopeId) {name : Name} (hname : P.Knows name) (v : Value) :
    (h.define id name v).NamedBy P := by
  intro j scope m w hs hw
  obtain ⟨old, hold, -, hbound⟩ := exists_of_get?_define hs
  rcases hbound m with hsame | ⟨rfl, -⟩
  · exact hh j old m w hold (hsame.symm.trans hw)
  · exact hname

theorem push (hh : h.NamedBy P) {bindings : Bindings}
    (hb : ∀ name v, bindings.find? name = some v → P.Knows name) (parent : Option ScopeId) :
    (h.push bindings parent).NamedBy P := by
  intro j scope m w hs hw
  rw [get?_push] at hs
  split at hs
  · cases hs
    exact hb m w hw
  · exact hh j scope m w hs hw

end Heap.NamedBy

/-- The parameters of a function are words of the program. -/
theorem Value.MadeOf.knows_param {tag : Tag} {c : Closure} (h : (function tag c).MadeOf P) {name : Name}
    (hname : name ∈ c.params) : P.Knows name := by
  refine .inr ((Expr.PartOf.argument ?_ .self).trans (madeOf_function.mp h))
  simp [Form.args, hname]

theorem Value.MadeOf.knows_binding {tag : Tag} {c : Closure} (h : (function tag c).MadeOf P)
    (args : List Value) : ∀ name v, (Bindings.ofList (c.params.zip args)).find? name = some v →
      P.Knows name :=
  fun _ _ hv => h.knows_param (List.of_mem_zip (Bindings.mem_of_find?_ofList hv)).1

/-- A step binds only names that the program knows. -/
theorem Config.Changes.namedBy {c : Config} {h : Heap} (hch : c.Changes h) (hc : c.Obeys (.pieces P))
    (hnames : c.state.heap.NamedBy P) : h.NamedBy P := by
  cases hch with
  | nothing => exact hnames
  | callEmpty =>
    have hf : Value.MadeOf P _ := hc.control
    exact hnames.push (hf.knows_binding []) _
  | call =>
    obtain ⟨hf, -⟩ := hc.stack _ List.mem_cons_self
    exact hnames.push (hf.knows_binding _) _
  | define =>
    obtain ⟨e, he⟩ := hc.stack _ List.mem_cons_self
    exact hnames.define _ (.inr ((Expr.PartOf.argument List.mem_cons_self .self).trans he)) _
  | assign =>
    obtain ⟨e, he⟩ := hc.stack _ List.mem_cons_self
    exact hnames.define _ (.inr ((Expr.PartOf.argument List.mem_cons_self .self).trans he)) _

/-! ## Runs from the first state -/

theorem State.obeys_program (P : Expr) (sink : Sink) :
    (State.initial sink).pushProgram.2.Obeys (.pieces P) := by
  refine ⟨Nat.zero_le _, fun v hv => ?_⟩
  rcases Heap.Binds.of_push hv with ⟨name, hv⟩ | hv
  · cases hv
  · rcases Heap.Binds.of_push hv with ⟨name, hv⟩ | hv
    · exact Bindings.madeOf_global hv
    · obtain ⟨id, scope, name, hget, -⟩ := hv
      cases hget

theorem State.namedBy_program (P : Expr) (sink : Sink) :
    (State.initial sink).pushProgram.2.heap.NamedBy P := by
  refine Heap.NamedBy.push (Heap.NamedBy.push ?_ ?_ _) ?_ _
  · intro id scope name v hs
    cases hs
  · intro name v hv
    exact .inl (Bindings.binds_eq_true.mpr ⟨v, hv⟩)
  · intro name v hv
    cases hv

theorem Config.obeys_program (P : Expr) (sink : Sink) :
    (Config.program P (.initial sink)).Obeys (.pieces P) :=
  ⟨State.obeys_program P sink, .self, by simp [Config.program]⟩

namespace Machine

theorem run_obeys_pieces (n : Nat) (P : Expr) (sink : Sink) :
    (run n (.program P (.initial sink))).Obeys (.pieces P) :=
  run_obeys n (Config.obeys_program P sink)

theorem run_namedBy (n : Nat) (P : Expr) (sink : Sink) :
    (run n (.program P (.initial sink))).state.heap.NamedBy P :=
  run_keeps (fun _ _ hc hch hnames => hch.namedBy hc hnames) n (Config.obeys_program P sink)
    (State.namedBy_program P sink)

end Machine

/-! ## Runs from any state -/

theorem Frame.Alike.values {ρ : Correspondence} {frame frame' : Frame} (h : frame.Alike ρ frame') :
    List.Forall₂ (Value.Alike ρ) frame.values frame'.values := by
  cases h with
  | argument _ hcallee hdone _ => exact .cons hcallee hdone
  | branch | loopTest | loopBody | sequence | define | assign | operator => exact .nil

theorem Progress.Alike.values {ρ : Correspondence} {p q : Progress} (h : p.Alike ρ q) :
    List.Forall₂ (Value.Alike ρ) p.values q.values := by
  cases h with
  | @running c d h =>
    obtain ⟨control, stack, s⟩ := c
    obtain ⟨control', stack', t⟩ := d
    obtain ⟨hcontrol, hstack, -⟩ := h
    have hvalues : List.Forall₂ (Value.Alike ρ) control.values control'.values := by
      cases hcontrol with
      | evaluate => exact .nil
      | yield hvw => exact .cons hvw .nil
    exact List.rel_append hvalues (List.rel_flatMap hstack fun _ _ hf => hf.values)
  | finished hr _ =>
    cases hr with
    | ok hvw => exact .cons hvw .nil
    | error x => exact .nil

theorem Progress.Alike.state {ρ : Correspondence} {p q : Progress} (h : p.Alike ρ q) :
    p.state.Alike ρ q.state := by
  cases h with
  | running h => exact h.state
  | finished _ hs => exact hs

/-- The value is held outside of the scopes, or bound in one of those that are there beyond the first
`base` ones. -/
def Progress.KeepsBeyond (base : Nat) (p : Progress) (v : Value) : Prop :=
  v ∈ p.values ∨ ∃ id scope name, base ≤ id ∧ p.state.heap.get? id = some scope ∧
    scope.bindings.find? name = some v

theorem Expr.PartOf.mem_leaves {l e : Expr} (h : l.PartOf e) (hl : l ∈ l.leaves) : l ∈ e.leaves := by
  induction h with
  | self => exact hl
  | operator _ ih => exact mem_leaves_apply.mpr (.inl ih)
  | argument ha _ ih => exact mem_leaves_apply.mpr (.inr ⟨_, ha, ih⟩)

namespace Program

variable {s : State}

/-- Whatever is bound beyond the scopes of the state in which a program was started, something like it
is bound under the same name when the program is started in the first state. -/
theorem exists_counterpart {n : Nat} {id : ScopeId} {scope : Scope} {name : Name} {v : Value}
    (hid : s.heap.size ≤ id) (hs : (run n (.program P s)).state.heap.get? id = some scope)
    (hv : scope.bindings.find? name = some v) :
    ∃ b scope' w, (run n (.program P (.initial s.sink))).state.heap.get? b = some scope' ∧
      scope'.bindings.find? name = some w ∧ v.Alike (s.shift.everywhere s.sink s.sink) w := by
  have hstate := (run_alike n (Config.alike_program P s s.sink)).state
  obtain ⟨b, rfl⟩ := Nat.exists_eq_add_of_le hid
  rcases rel_cases (hstate.heap.scopes (a := s.heap.size + b) (b := b) rfl) with
    ⟨hnone, -⟩ | ⟨here, there, ha, hb, hscope⟩
  · rw [hs] at hnone
    cases hnone
  · rw [hs] at ha
    cases ha
    rcases rel_cases (hscope.bindings name trivial) with ⟨hnone, -⟩ | ⟨v', w, hv', hw, hvw⟩
    · rw [hv] at hnone
      cases hnone
    · rw [hv] at hv'
      cases hv'
      exact ⟨b, there, w, hb, hw, hvw⟩

theorem madeOf_of_keepsBeyond {n : Nat} {v : Value}
    (h : (run n (.program P s)).KeepsBeyond s.heap.size v) : v.MadeOf P := by
  have hobeys := run_obeys_pieces n P s.sink
  rcases h with hv | ⟨id, scope, name, hid, hs, hv⟩
  · have hvalues := (run_alike n (Config.alike_program P s s.sink)).values
    obtain ⟨w, hw, hvw⟩ := rel_mem_left hvalues hv
    exact hvw.madeOf (hobeys.values w hw)
  · obtain ⟨b, scope', w, hb, hw, hvw⟩ := exists_counterpart hid hs hv
    have hbinds : (run n (.program P (.initial s.sink))).state.heap.Binds w := ⟨b, scope', name, hb, hw⟩
    exact hvw.madeOf (hobeys.state.binds w hbinds)

/-- When a source text is run by itself, in whatever state, then at every moment and in the end each
function that is held outside of the scopes of before, by itself or inside of an array, has the
parameters and the body of a `fun` that is written in the program; each text there is a text literal
of the program, and so without quotes; and all names that are bound there are such as every program
finds or words of the program. -/
theorem run_made_of_pieces {source : String} (hparse : Syntax.parse source = .ok P) (s : State)
    (n : Nat) :
    runSource n source s = (run n (.program P s)).outcome? ∧
    (∀ v, (run n (.program P s)).KeepsBeyond s.heap.size v →
      (∀ tag c, (Value.function tag c).Inside v →
        (Form.function c.params c.body).toExpr.PartOf P) ∧
      (∀ t, (Value.text t).Inside v → (Expr.text t).PartOf P ∧ '"' ∉ t.toList)) ∧
    (∀ id scope name v, s.heap.size ≤ id →
      (run n (.program P s)).state.heap.get? id = some scope →
      scope.bindings.find? name = some v →
        Bindings.global.binds name = true ∨ (Expr.word name).PartOf P) := by
  have hwritten := Syntax.written_of_parse hparse
  refine ⟨runSource_of_parse hparse n s, fun v hv => ?_, fun id scope name v hid hs hv => ?_⟩
  · have hmade := madeOf_of_keepsBeyond hv
    refine ⟨hmade.functions, fun t hin => ?_⟩
    have hpart := hmade.texts t hin
    exact ⟨hpart, hwritten.text t (hpart.mem_leaves (by simp [Expr.leaves]))⟩
  · obtain ⟨b, scope', w, hb, hw, -⟩ := exists_counterpart hid hs hv
    exact run_namedBy n P s.sink b scope' name w hb hw

/-- The array that a function of the program returns holds an argument of the call and a text of its
body. -/
theorem run_made_of_pieces_array :
    ∃ (P : Expr) (s' : State),
      Syntax.parse "do(define(f, fun(x, array(x, \"a\"))), f(\"b\"))" = .ok P ∧
      runSource 40 "do(define(f, fun(x, array(x, \"a\"))), f(\"b\"))" (.initial .silent) =
        some (.ok (.array 1 [.text "b", .text "a"]), s') ∧
      (Expr.text "b").PartOf P ∧ (Expr.text "a").PartOf P := by
  have hparse : Syntax.parse "do(define(f, fun(x, array(x, \"a\"))), f(\"b\"))" =
      .ok (.apply (.word "do") [.apply (.word "define") [.word "f", .apply (.word "fun")
        [.word "x", .apply (.word "array") [.word "x", .text "a"]]],
        .apply (.word "f") [.text "b"]]) := by cbv
  obtain ⟨houtcome, hvalues, -⟩ := run_made_of_pieces hparse (.initial .silent) 40
  have hresult : (runSource 40 "do(define(f, fun(x, array(x, \"a\"))), f(\"b\"))"
      (.initial .silent)).map Prod.fst = some (.ok (.array 1 [.text "b", .text "a"])) := by cbv
  obtain ⟨⟨r, s'⟩, hrun, rfl⟩ := Option.map_eq_some_iff.mp hresult
  rw [houtcome] at hrun
  obtain ⟨r, hr, hfinished⟩ := Progress.exists_of_outcome? hrun
  cases r with
  | error x => cases hr
  | ok v =>
    cases hr
    rw [hfinished] at hvalues
    obtain ⟨-, htexts⟩ := hvalues _ (.inl List.mem_cons_self)
    refine ⟨_, s', hparse, houtcome.trans hrun, ?_, ?_⟩
    · exact (htexts "b" (.item List.mem_cons_self .self)).1
    · exact (htexts "a" (.item (List.mem_cons_of_mem _ List.mem_cons_self) .self)).1

end Program

end Egg
