import Egg.Proofs.Eval.WellFormed
import Mathlib

/-!
# Only an assignment reaches other scopes

A definition binds its name in the scope where it is evaluated, and a call gets a new scope. So if no
assignment is in sight, neither in the expression to be evaluated nor in the body of a function that
it might come upon, then an evaluation leaves every scope alone but its own one, and that one too
except for the names which the expression defines itself (`Program.evaluate_changes_only_at`).
-/

namespace Egg

/-! ## Occurrences in expressions -/

namespace Expr

/-- An expression occurs in another one. -/
inductive PartOf (e : Expr) : Expr → Prop where
  | self : PartOf e e
  | operator {f : Expr} {args : List Expr} (h : PartOf e f) : PartOf e (.apply f args)
  | argument {f a : Expr} {args : List Expr} (ha : a ∈ args) (h : PartOf e a) :
      PartOf e (.apply f args)

/-- An expression occurs in another one, and not in a function that is made there. -/
inductive OutsideFunctions (e : Expr) : Expr → Prop where
  | self : OutsideFunctions e e
  | operator {f : Expr} {args : List Expr} (h : OutsideFunctions e f) :
      OutsideFunctions e (.apply f args)
  | argument {f a : Expr} {args : List Expr} (hf : f ≠ .word SpecialForm.function.name)
      (ha : a ∈ args) (h : OutsideFunctions e a) : OutsideFunctions e (.apply f args)

/-- Nothing in the expression is an application of the word for assignments. -/
def SetFree (e : Expr) : Prop :=
  ∀ args, ¬ (Expr.apply (.word SpecialForm.assign.name) args).PartOf e

/-- The expression has a definition of the name that is not inside of a function. -/
def Defines (e : Expr) (name : Name) : Prop :=
  ∃ value, (Form.define name value).toExpr.OutsideFunctions e

variable {e e₁ e₂ e₃ f : Expr} {args : List Expr} {name : Name}

theorem PartOf.trans (h₁₂ : e₁.PartOf e₂) (h₂₃ : e₂.PartOf e₃) : e₁.PartOf e₃ := by
  induction h₂₃ with
  | self => exact h₁₂
  | operator _ ih => exact .operator ih
  | argument ha _ ih => exact .argument ha ih

theorem OutsideFunctions.trans (h₁₂ : e₁.OutsideFunctions e₂) (h₂₃ : e₂.OutsideFunctions e₃) :
    e₁.OutsideFunctions e₃ := by
  induction h₂₃ with
  | self => exact h₁₂
  | operator _ ih => exact .operator ih
  | argument hf ha _ ih => exact .argument hf ha ih

theorem OutsideFunctions.partOf (h : e₁.OutsideFunctions e₂) : e₁.PartOf e₂ := by
  induction h with
  | self => exact .self
  | operator _ ih => exact .operator ih
  | argument _ ha _ ih => exact .argument ha ih

@[simp]
theorem setFree_text (t : String) : (text t).SetFree := fun _ h => by cases h

@[simp]
theorem setFree_word (w : Name) : (word w).SetFree := fun _ h => by cases h

@[simp]
theorem setFree_apply : (apply f args).SetFree ↔
    f ≠ .word SpecialForm.assign.name ∧ f.SetFree ∧ ∀ a ∈ args, a.SetFree := by
  constructor
  · intro h
    refine ⟨?_, fun as hf => h as (.operator hf), fun a ha as hset => h as (.argument ha hset)⟩
    rintro rfl
    exact h args .self
  · rintro ⟨hne, hf, hargs⟩ as hset
    cases hset with
    | self => exact hne rfl
    | operator hset => exact hf as hset
    | argument ha hset => exact hargs _ ha as hset

@[simp]
theorem outsideFunctions_text {t : String} : e.OutsideFunctions (text t) ↔ e = text t := by
  refine ⟨fun h => ?_, fun h => h ▸ .self⟩
  cases h
  rfl

@[simp]
theorem outsideFunctions_word {w : Name} : e.OutsideFunctions (word w) ↔ e = word w := by
  refine ⟨fun h => ?_, fun h => h ▸ .self⟩
  cases h
  rfl

@[simp]
theorem outsideFunctions_apply : e.OutsideFunctions (apply f args) ↔
    e = apply f args ∨ e.OutsideFunctions f ∨
      f ≠ .word SpecialForm.function.name ∧ ∃ a ∈ args, e.OutsideFunctions a := by
  constructor
  · intro h
    cases h with
    | self => exact .inl rfl
    | operator h => exact .inr (.inl h)
    | argument hf ha h => exact .inr (.inr ⟨hf, _, ha, h⟩)
  · rintro (rfl | h | ⟨hf, a, ha, h⟩)
    · exact .self
    · exact .operator h
    · exact .argument hf ha h

theorem SetFree.part (h : e.SetFree) (hpart : e₁.PartOf e) : e₁.SetFree :=
  fun args hset => h args (hset.trans hpart)

theorem Defines.outward (h : e₁.Defines name) (hout : e₁.OutsideFunctions e) : e.Defines name := by
  obtain ⟨value, hdef⟩ := h
  exact ⟨value, hdef.trans hout⟩

end Expr

/-- The parts of a form are evaluated where it stands, so none of them is inside of a function. -/
theorem Form.outsideFunctions_of_mem_parts {form : Form} {e : Expr} (he : e ∈ form.parts) :
    e.OutsideFunctions form.toExpr := by
  have hargs : e ∈ form.args := by cases form <;> simp_all [parts, args]
  have hkind : form.kind.name ≠ SpecialForm.function.name := by
    cases form with
    | function => cases he
    | choice | loop | sequence | define | assign => simp [kind, SpecialForm.name]
  exact .argument (fun heq => hkind (Expr.word.inj heq)) hargs .self

/-! ## Functions that are held somewhere -/

/-- A value is another one or an item of it, at any depth. -/
inductive Value.Inside (w : Value) : Value → Prop where
  | self : Inside w w
  | item {v : Value} {tag : Tag} {items : List Value} (hv : v ∈ items) (h : Inside w v) :
      Inside w (.array tag items)

/-- The value is inside of one that some scope binds a name to. -/
def Heap.Holds (h : Heap) (w : Value) : Prop := ∃ v, h.Binds v ∧ w.Inside v

/-- No function inside of the value has an assignment in its body. -/
def Value.SetFree (v : Value) : Prop :=
  ∀ tag c, (Value.function tag c).Inside v → c.body.SetFree

theorem Value.IsPlain.setFree {v : Value} (hv : v.IsPlain) : v.SetFree := by
  intro tag c hin
  cases hin with
  | self | item => cases hv

theorem Value.setFree_array {tag : Tag} {items : List Value} :
    (Value.array tag items).SetFree ↔ ∀ v ∈ items, v.SetFree := by
  constructor
  · intro h v hv tag' c hin
    exact h tag' c (.item hv hin)
  · intro h tag' c hin
    cases hin with
    | item hv hin => exact h _ hv tag' c hin

theorem Value.setFree_function {tag : Tag} {c : Closure} :
    (Value.function tag c).SetFree ↔ c.body.SetFree := by
  constructor
  · intro h
    exact h tag c .self
  · intro h tag' c' hin
    cases hin
    exact h

/-! ## The discipline of definitions -/

/-- No assignments are evaluated, and outside of the scopes that were made later, only in one scope
anything is evaluated at all, and there only certain names are defined. -/
def Discipline.definitions (scope : ScopeId) (names : Name → Prop) (base : Nat) : Discipline where
  base := base
  place _ _ := True
  allows _ e id := e.SetFree ∧ (base ≤ id ∨ id = scope ∧ ∀ x, e.Defines x → names x)
  value _ v := v.SetFree
  place_mono _ h := h
  allows_mono _ h := h
  value_mono _ h := h
  place_of_allows _ := trivial
  number := Value.IsPlain.setFree trivial
  bool := Value.IsPlain.setFree trivial
  text _ := Value.IsPlain.setFree trivial
  array h := Value.setFree_array.mpr h
  item h hv := Value.setFree_array.mp h _ hv
  function h := by
    refine Value.setFree_function.mpr (h.1.part (.argument ?_ .self))
    simp [Form.args]
  call := by
    rintro s f args id hf ⟨hfree, hplace⟩
    refine ⟨⟨hfree.part (.operator .self), ?_⟩, fun a ha => ⟨hfree.part (.argument ha .self), ?_⟩⟩
    · exact hplace.imp_right fun h => ⟨h.1, fun x hx => h.2 x (hx.outward (.operator .self))⟩
    · exact hplace.imp_right fun h =>
        ⟨h.1, fun x hx => h.2 x (hx.outward (.argument (hf .function) ha .self))⟩
  form := by
    rintro s form id ⟨hfree, hplace⟩ e he
    have hout := Form.outsideFunctions_of_mem_parts he
    exact ⟨hfree.part hout.partOf, hplace.imp_right fun h => ⟨h.1, fun x hx => h.2 x (hx.outward hout)⟩⟩
  body hbase hf _ _ := ⟨Value.setFree_function.mp hf, .inl hbase⟩

/-! ## Heaps that differ in one scope -/

/-- Of the scopes of `h`, only one differs in `h'`, and only at certain names. -/
structure Heap.ChangedOnlyAt (scope : ScopeId) (names : Name → Prop) (h h' : Heap) : Prop where
  others : ∀ id < h.size, id ≠ scope → h'.get? id = h.get? id
  own : ∀ own, h.get? scope = some own → ∃ own', h'.get? scope = some own' ∧
    own'.parent = own.parent ∧ ∀ x, ¬ names x → own'.bindings.find? x = own.bindings.find? x

namespace Heap.ChangedOnlyAt

variable {scope : ScopeId} {names : Name → Prop} {h h' : Heap}

theorem refl : ChangedOnlyAt scope names h h :=
  ⟨fun _ _ _ => rfl, fun own hown => ⟨own, hown, rfl, fun _ _ => rfl⟩⟩

theorem push (hch : ChangedOnlyAt scope names h h') (hsize : h.size ≤ h'.size) (bindings : Bindings)
    (parent : Option ScopeId) : ChangedOnlyAt scope names h (h'.push bindings parent) := by
  refine ⟨fun id hid hne => ?_, fun own hown => ?_⟩
  · rw [get?_push_of_lt (Nat.lt_of_lt_of_le hid hsize)]
    exact hch.others id hid hne
  · obtain ⟨own', hown', hrest⟩ := hch.own own hown
    exact ⟨own', by rw [get?_push_of_lt (lt_of_get? hown'), hown'], hrest⟩

/-- A name is bound in a later scope, or it is one of the names and bound in the one scope. -/
theorem define (hch : ChangedOnlyAt scope names h h') {id : ScopeId} {name : Name}
    (hid : h.size ≤ id ∨ id = scope ∧ names name) (v : Value) :
    ChangedOnlyAt scope names h (h'.define id name v) := by
  refine ⟨fun j hj hne => ?_, fun own hown => ?_⟩
  · have hij : id ≠ j := by
      rintro rfl
      rcases hid with hge | ⟨heq, -⟩
      · exact Nat.not_lt_of_le hge hj
      · exact hne heq
    rw [get?_define, if_neg hij]
    exact hch.others j hj hne
  · obtain ⟨own', hown', hparent, hnames⟩ := hch.own own hown
    rw [get?_define, hown']
    by_cases heq : id = scope
    · have hname : names name := by
        rcases hid with hge | ⟨-, hname⟩
        · exact absurd (lt_of_get? hown) (Nat.not_lt_of_le (heq ▸ hge))
        · exact hname
      refine ⟨{ own' with bindings := own'.bindings.insert name v }, by rw [if_pos heq]; rfl, hparent, ?_⟩
      intro x hx
      have hne : x ≠ name := by
        rintro rfl
        exact hx hname
      rw [Bindings.find?_insert, if_neg hne]
      exact hnames x hx
    · exact ⟨own', by rw [if_neg heq], hparent, hnames⟩

end Heap.ChangedOnlyAt

/-! ## Steps -/

/-- One step of an evaluation without assignments. -/
theorem Config.Changes.changedOnlyAt {scope : ScopeId} {names : Name → Prop} {h h' : Heap}
    {c : Config} (hstep : c.Changes h') (hc : c.Obeys (.definitions scope names h.size))
    (hch : h.ChangedOnlyAt scope names c.state.heap) : h.ChangedOnlyAt scope names h' := by
  have hsize : h.size ≤ c.state.heap.size := hc.state.base
  cases hstep with
  | nothing => exact hch
  | callEmpty | call => exact hch.push hsize _ _
  | define =>
    obtain ⟨e, -, hplace⟩ := hc.stack _ List.mem_cons_self
    exact hch.define (hplace.imp_right fun h => ⟨h.1, h.2 _ ⟨e, .self⟩⟩) _
  | assign =>
    -- the frame of an assignment waits only where an assignment was allowed
    obtain ⟨e, hfree, -⟩ := hc.stack _ List.mem_cons_self
    exact absurd .self (hfree _)

/-! ## Runs -/

namespace Program

/-- If there is no assignment in an expression, nor in the body of any function that a scope holds,
then an evaluation of the expression, whether it ends well or badly, leaves all scopes as they were,
except that its own scope may differ at the names which the expression defines outside of
functions. -/
theorem evaluate_changes_only_at {steps : Nat} {e : Expr} {scope : ScopeId} {s s' : State}
    {r : Except RunError Value} (he : e.SetFree)
    (hs : ∀ tag c, s.heap.Holds (.function tag c) → c.body.SetFree)
    (h : evaluate steps e scope s = some (r, s')) :
    s.heap.ChangedOnlyAt scope e.Defines s'.heap := by
  have hstate : s.Obeys (.definitions scope e.Defines s.heap.size) :=
    ⟨Nat.le_refl _, fun v hv tag c hin => hs tag c ⟨v, hv, hin⟩⟩
  have hfirst : Config.Obeys (.definitions scope e.Defines s.heap.size) ⟨.evaluate e scope, [], s⟩ :=
    ⟨hstate, ⟨he, .inr ⟨rfl, fun _ hx => hx⟩⟩, by simp⟩
  rw [← Progress.state_of_outcome? h]
  exact Machine.run_keeps (fun _ _ hc hstep hch => hstep.changedOnlyAt hc hch) steps hfirst .refl

/-- The function `fun(x, define(y, x))` is bound to `f` in the scope of a program, and
`do(define(z, "a"), f("b"))` is evaluated there. The call defines `y`, but in a scope of its own. -/
theorem evaluate_changes_only_at_call :
    ∃ s : State, (∀ tag c, s.heap.Holds (.function tag c) → c.body.SetFree) ∧
      s.heap.lookup? 1 "f" = some (.function 0
        ⟨["x"], .apply (.word "define") [.word "y", .word "x"], 1⟩) ∧
      ∃ s', evaluate 30 (.apply (.word "do") [.apply (.word "define") [.word "z", .text "a"],
          .apply (.word "f") [.text "b"]]) 1 s = some (.ok (.text "b"), s') ∧
        s'.heap.size = 3 ∧ s'.heap.get? 0 = s.heap.get? 0 ∧
        ∃ own own', s.heap.get? 1 = some own ∧ s'.heap.get? 1 = some own' ∧
          own'.bindings.find? "y" = own.bindings.find? "y" := by
  have hs : ∀ tag c, ((State.initial .silent).pushProgram.2.define 1 "f" (.function 0
      ⟨["x"], .apply (.word "define") [.word "y", .word "x"], 1⟩)).heap.Holds (.function tag c) →
        c.body.SetFree := by
    rintro tag c ⟨v, hv, hin⟩
    rcases Heap.Binds.of_define hv with rfl | hv
    · exact Value.setFree_function.mpr (by simp [SpecialForm.name]) tag c hin
    rcases Heap.Binds.of_push hv with ⟨name, hv⟩ | hv
    · cases hv
    rcases Heap.Binds.of_push hv with ⟨name, hv⟩ | hv
    · exact (Bindings.isPlain_global hv).setFree tag c hin
    · obtain ⟨id, scope, name, hget, -⟩ := hv
      cases hget
  have hrun : (evaluate 30 (.apply (.word "do") [.apply (.word "define") [.word "z", .text "a"],
      .apply (.word "f") [.text "b"]]) 1 ((State.initial .silent).pushProgram.2.define 1 "f"
        (.function 0 ⟨["x"], .apply (.word "define") [.word "y", .word "x"], 1⟩))).map
          (fun outcome => (outcome.1, outcome.2.heap.size)) = some (.ok (.text "b"), 3) := by
    cbv
  obtain ⟨⟨r, s'⟩, h, heq⟩ := Option.map_eq_some_iff.mp hrun
  obtain ⟨rfl, hsize⟩ := Prod.mk.inj heq
  obtain ⟨hothers, hown⟩ := evaluate_changes_only_at (by simp [SpecialForm.name]) hs h
  obtain ⟨own', hown', -, hnames⟩ := hown _ rfl
  refine ⟨_, hs, by cbv, s', h, hsize, hothers 0 (by decide) (by decide), _, own', rfl, hown', ?_⟩
  refine hnames "y" ?_
  rintro ⟨value, hdef⟩
  simp [Form.toExpr, Form.kind, Form.args, SpecialForm.name] at hdef

end Program

end Egg
