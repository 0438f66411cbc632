import Egg.Proofs.Eval.Pieces
import Mathlib

/-!
# Names that a program never binds

The scopes of a program lie inside of one that binds the names which every program finds. As long as
such a name is not bound again on the way there, it has its first value. A program that has no
definition of the name, no assignment to it and no parameter of this name binds it in no scope, so
wherever an expression is evaluated in the course of the program, the name has its first value
(`Program.lookup?_of_neverBinds`).
-/

namespace Egg

open Machine

/-! ## Two disciplines at once -/

/-- The rule to keep to two others. -/
def Discipline.both (d d' : Discipline) : Discipline where
  base := max d.base d'.base
  place s id := d.place s id ∧ d'.place s id
  allows s e id := d.allows s e id ∧ d'.allows s e id
  value s v := d.value s v ∧ d'.value s v
  place_mono hs h := ⟨d.place_mono hs h.1, d'.place_mono hs h.2⟩
  allows_mono hs h := ⟨d.allows_mono hs h.1, d'.allows_mono hs h.2⟩
  value_mono hs h := ⟨d.value_mono hs h.1, d'.value_mono hs h.2⟩
  place_of_allows h := ⟨d.place_of_allows h.1, d'.place_of_allows h.2⟩
  number := ⟨d.number, d'.number⟩
  bool := ⟨d.bool, d'.bool⟩
  text h := ⟨d.text h.1, d'.text h.2⟩
  array h := ⟨d.array fun v hv => (h v hv).1, d'.array fun v hv => (h v hv).2⟩
  item h hv := ⟨d.item h.1 hv, d'.item h.2 hv⟩
  function h := ⟨d.function h.1, d'.function h.2⟩
  call hf h := by
    obtain ⟨hop, hargs⟩ := d.call hf h.1
    obtain ⟨hop', hargs'⟩ := d'.call hf h.2
    exact ⟨⟨hop, hop'⟩, fun a ha => ⟨hargs a ha, hargs' a ha⟩⟩
  form h e he := ⟨d.form h.1 e he, d'.form h.2 e he⟩
  body hbase h hs hlt :=
    ⟨d.body (Nat.le_trans (Nat.le_max_left _ _) hbase) h.1 hs hlt,
      d'.body (Nat.le_trans (Nat.le_max_right _ _) hbase) h.2 hs hlt⟩

/-! ## Names that are bound -/

/-- The names that a special form binds. -/
def Form.boundNames : Form → List Name
  | .define name _ => [name]
  | .assign name _ => [name]
  | .function params _ => params
  | .choice _ _ _ => []
  | .loop _ _ => []
  | .sequence _ => []

/-- Nothing in the expression defines the name, sets it or takes it as a parameter. -/
def Expr.NeverBinds (e : Expr) (name : Name) : Prop :=
  ∀ form : Form, form.toExpr.PartOf e → name ∉ form.boundNames

/-- The names that an application of an operator to arguments binds itself. -/
def Expr.namesBoundBy (f : Expr) (args : List Expr) : List Name :=
  match SpecialForm.ofOperator? f with
  | none => []
  | some kind =>
    match kind.shape args with
    | .ok form => form.boundNames
    | .error _ => []

namespace Expr

variable {name : Name}

theorem namesBoundBy_toExpr (form : Form) :
    namesBoundBy (.word form.kind.name) form.args = form.boundNames := by
  simp only [namesBoundBy, form.ofOperator?_kind, form.shape_args]

@[simp]
theorem neverBinds_text (t : String) : (text t).NeverBinds name := by
  intro form h
  cases h

@[simp]
theorem neverBinds_word (w : Name) : (word w).NeverBinds name := by
  intro form h
  cases h

/-- It is enough to look at each application by itself. -/
@[simp]
theorem neverBinds_apply {f : Expr} {args : List Expr} : (apply f args).NeverBinds name ↔
    name ∉ namesBoundBy f args ∧ f.NeverBinds name ∧ ∀ a ∈ args, a.NeverBinds name := by
  constructor
  · intro h
    refine ⟨?_, fun form hpart => h form (.operator hpart),
      fun a ha form hpart => h form (.argument ha hpart)⟩
    unfold namesBoundBy
    split
    · exact List.not_mem_nil
    · next kind hkind =>
      split
      · next form hshape =>
        obtain ⟨rfl, rfl⟩ := SpecialForm.shape_eq_ok_iff.mp hshape
        obtain rfl := SpecialForm.ofOperator?_eq_some.mp hkind
        exact h form .self
      · exact List.not_mem_nil
  · rintro ⟨hself, hf, hargs⟩ form h
    generalize he : form.toExpr = e at h
    cases h with
    | self =>
      cases he
      rwa [namesBoundBy_toExpr] at hself
    | operator h => exact hf form (he ▸ h)
    | argument ha h => exact hargs _ ha form (he ▸ h)

end Expr

/-- Every scope binds the name to the value, or lies inside of an older one and does not bind the
name. -/
def Heap.GivesEverywhere (name : Name) (v : Value) (h : Heap) : Prop :=
  ∀ id scope, h.get? id = some scope → scope.bindings.find? name = some v ∨
    scope.bindings.find? name = none ∧ ∃ parent < id, scope.parent = some parent

namespace Heap.GivesEverywhere

variable {name : Name} {v : Value} {h : Heap}

theorem lookup?_eq (hh : h.GivesEverywhere name v) {id : ScopeId} (hid : id < h.size) :
    h.lookup? id name = some v := by
  have howner : ∃ owner scope, h.owner? id name = some owner ∧ h.get? owner = some scope ∧
      scope.bindings.find? name = some v := by
    induction id using Nat.strongRecOn with
    | ind id ih =>
      obtain ⟨scope, hs⟩ := exists_get?_of_lt hid
      rcases hh id scope hs with hv | ⟨hnone, parent, hlt, hparent⟩
      · refine ⟨id, scope, ?_, hs, hv⟩
        rw [owner?, hs]
        simp only [Bindings.binds_eq_true.mpr ⟨v, hv⟩, if_true]
      · obtain ⟨owner, scope', howner, hfound⟩ := ih parent hlt (Nat.lt_trans hlt hid)
        refine ⟨owner, scope', ?_, hfound⟩
        rw [owner?, hs]
        simp only [Bindings.binds_eq_false.mpr hnone, hparent, if_pos hlt]
        exact howner
  obtain ⟨owner, scope, howner, hs, hv⟩ := howner
  rw [lookup?, howner]
  simp only [hs, Option.bind_some, hv]

theorem define (hh : h.GivesEverywhere name v) {m : Name} (hm : name ≠ m) (id : ScopeId)
    (w : Value) : (h.define id m w).GivesEverywhere name v := by
  intro j scope hs
  obtain ⟨old, hold, hparent, hbound⟩ := exists_of_get?_define hs
  rcases hbound name with hsame | ⟨hname, -⟩
  · rw [hsame, hparent]
    exact hh j old hold
  · exact absurd hname hm

theorem push (hh : h.GivesEverywhere name v) {bindings : Bindings}
    (hb : bindings.find? name = none) {parent : ScopeId} (hp : parent < h.size) :
    (h.push bindings (some parent)).GivesEverywhere name v := by
  intro j scope hs
  rw [get?_push] at hs
  split at hs
  · next hj =>
    cases hs
    exact .inr ⟨hb, parent, hj ▸ hp, rfl⟩
  · exact hh j scope hs

end Heap.GivesEverywhere

variable {P : Expr} {name : Name} {v : Value}

/-- No scope that a call makes binds a name that the program never binds. -/
theorem Value.MadeOf.find?_eq_none {tag : Tag} {c : Closure} (h : (function tag c).MadeOf P)
    (hP : P.NeverBinds name) (args : List Value) :
    (Bindings.ofList (c.params.zip args)).find? name = none :=
  Bindings.find?_ofList_zip_of_not_mem (hP _ (madeOf_function.mp h)) args

/-- A step leaves the value of a name that the program never binds. -/
theorem Config.Changes.givesEverywhere {c : Config} {h : Heap} (hch : c.Changes h)
    (hc : c.Obeys (.both .references (.pieces P))) (hP : P.NeverBinds name)
    (hheap : c.state.heap.GivesEverywhere name v) : h.GivesEverywhere name v := by
  cases hch with
  | nothing => exact hheap
  | callEmpty =>
    obtain ⟨hwithin, hmade⟩ : _ ∧ Value.MadeOf P _ := hc.control
    cases hwithin with
    | function hscope => exact hheap.push (hmade.find?_eq_none hP []) hscope
  | call =>
    obtain ⟨⟨hwithin, hmade⟩, -⟩ := hc.stack _ List.mem_cons_self
    cases hwithin with
    | function hscope => exact hheap.push (hmade.find?_eq_none hP _) hscope
  | define =>
    obtain ⟨e, -, hpart⟩ := hc.stack _ List.mem_cons_self
    exact hheap.define (List.ne_of_not_mem_cons (hP _ hpart)) _ _
  | assign =>
    obtain ⟨e, -, hpart⟩ := hc.stack _ List.mem_cons_self
    exact hheap.define (List.ne_of_not_mem_cons (hP _ hpart)) _ _

/-! ## Runs -/

theorem State.givesEverywhere_program (hv : Bindings.global.find? name = some v) (sink : Sink) :
    (State.initial sink).pushProgram.2.heap.GivesEverywhere name v := by
  refine Heap.GivesEverywhere.push ?_ rfl (Nat.zero_lt_one)
  intro id scope hs
  rcases id with _ | id
  · cases hs
    exact .inl hv
  · cases hs

theorem Config.obeys_both_program (P : Expr) (sink : Sink) :
    (Config.program P (.initial sink)).Obeys (.both .references (.pieces P)) := by
  have hpieces := State.obeys_program P sink
  have hwf := State.wellFormed_pushProgram (s := .initial sink) Heap.wellFormed_empty
  have hstate : (State.initial sink).pushProgram.2.Obeys (.both .references (.pieces P)) :=
    ⟨Nat.zero_le _, fun v hv => ⟨hwf.within_of_binds hv, hpieces.binds v hv⟩⟩
  exact ⟨hstate, ⟨State.pushProgram_lt _, .self⟩, by simp [Config.program]⟩

/-- Wherever an expression is evaluated in the course of a program that is run by itself, in whatever
state, a name that every program finds and that the program never binds has its first value. -/
theorem Program.lookup?_of_neverBinds (hv : Bindings.global.find? name = some v)
    (hP : P.NeverBinds name) {s : State} {n : Nat} {c : Config} {e : Expr} {scope : ScopeId}
    (hrun : run n (.program P s) = .running c) (hc : c.control = .evaluate e scope) :
    c.state.heap.lookup? scope name = some v := by
  have halike := run_alike n (Config.alike_program P s s.sink)
  have hobeys := run_obeys n (Config.obeys_both_program P s.sink)
  have hgives := run_keeps (fun _ _ hc hch h => hch.givesEverywhere hc hP h) n
    (Config.obeys_both_program P s.sink) (State.givesEverywhere_program hv s.sink)
  rw [hrun] at halike
  generalize run n (.program P (.initial s.sink)) = q at halike hobeys hgives
  cases halike with
  | @running _ d hcd =>
    obtain ⟨control, stack, t⟩ := d
    obtain ⟨hcontrol, -, hstate⟩ := hcd
    rw [hc] at hcontrol
    cases hcontrol with
    | @evaluate _ _ b hscope _ =>
      obtain ⟨hlt, -⟩ : b < t.heap.size ∧ e.PartOf P := hobeys.control
      have hlookup : Option.Rel _ (c.state.heap.lookup? scope name) (t.heap.lookup? b name) :=
        hstate.heap.lookup? hscope trivial
      have hthere : t.heap.lookup? b name = some v := hgives.lookup?_eq hlt
      rcases rel_cases hlookup with ⟨-, hnone⟩ | ⟨w, v', hw, hv', hwv⟩
      · rw [hthere] at hnone
        cases hnone
      · rw [hthere] at hv'
        cases hv'
        rw [hw, hwv.eq_of_isPlain (Bindings.isPlain_global hv)]

end Egg
