import Egg.Proofs.Eval.Likeness
import Egg.Proofs.Expr.Leaves
import Mathlib

/-!
# Programs with inserted prints

The native function `print` returns what it prints. So a call of it can be put around any expression
that is evaluated, to see its value. Here is the relation between expressions with and without such
calls, and from it the relations between the values and the states that they lead to: functions may
differ in the calls that were put into their bodies, and nothing else may.
-/

namespace Egg

/-! ## Expressions -/

/-- At the place `i` of its `count` arguments, the special form takes a name, which is not evaluated. -/
def SpecialForm.TakesName : SpecialForm → (count i : Nat) → Prop
  | define, _, i => i = 0
  | assign, _, i => i = 0
  | function, count, i => i + 1 < count
  | choice, _, _ => False
  | loop, _, _ => False
  | sequence, _, _ => False

/-- The second expression is the first one with calls of `print` put around some of its evaluated
subexpressions. These are all but the words for special forms and the names that special forms take. -/
inductive Expr.Traced : Expr → Expr → Prop where
  | number (n : Number) : Traced (.number n) (.number n)
  | text (t : String) : Traced (.text t) (.text t)
  | word (name : Name) : Traced (.word name) (.word name)
  | call {f f' : Expr} {args args' : List Expr} (hf : f.IsOrdinary) (h : Traced f f')
      (hlength : args.length = args'.length) (hargs : ∀ p ∈ args.zip args', Traced p.1 p.2) :
      Traced (.apply f args) (.apply f' args')
  | form {form : SpecialForm} {args args' : List Expr} (hlength : args.length = args'.length)
      (hargs : ∀ p ∈ args.zip args', Traced p.1 p.2)
      (hnames : ∀ i name, form.TakesName args.length i → args[i]? = some (.word name) →
        args'[i]? = some (.word name)) :
      Traced (.apply (.word form.name) args) (.apply (.word form.name) args')
  | print {e e' : Expr} (h : Traced e e') : Traced e (.apply (.word Builtin.print.name) [e'])

namespace Expr

theorem forall₂_traced {args args' : List Expr} (hlength : args.length = args'.length)
    (hargs : ∀ p ∈ args.zip args', p.1.Traced p.2) : List.Forall₂ Traced args args' :=
  List.forall₂_iff_zip.mpr ⟨hlength, fun {a a'} h => hargs (a, a') h⟩

namespace Traced

theorem ordinary {f f' : Expr} {args args' : List Expr} (hf : f.IsOrdinary) (h : f.Traced f')
    (hargs : List.Forall₂ Traced args args') : (apply f args).Traced (apply f' args') :=
  .call hf h hargs.length_eq fun _ hp => (List.forall₂_iff_zip.mp hargs).2 hp

theorem special (form : SpecialForm) {args args' : List Expr} (hargs : List.Forall₂ Traced args args')
    (hnames : ∀ i name, form.TakesName args.length i → args[i]? = some (.word name) →
      args'[i]? = some (.word name)) :
    (apply (.word form.name) args).Traced (apply (.word form.name) args') :=
  .form hargs.length_eq (fun _ hp => (List.forall₂_iff_zip.mp hargs).2 hp) hnames

theorem refl (e : Expr) : e.Traced e := by
  induction e using Expr.induction with
  | number n => exact .number n
  | text t => exact .text t
  | word name => exact .word name
  | apply f args hf hargs =>
    have hsame : List.Forall₂ Traced args args := List.forall₂_same.mpr hargs
    by_cases hordinary : f.IsOrdinary
    · exact .ordinary hordinary hf hsame
    · obtain ⟨form, hform⟩ := not_forall_not.mp hordinary
      subst hform
      exact .special form hsame fun _ _ _ hname => hname

/-- An expression that is no word does not become one. -/
theorem ne_word {e e' : Expr} (h : e.Traced e') (he : ∀ name, e ≠ .word name) :
    ∀ name, e' ≠ .word name := by
  cases h with
  | number | text | call | form | print => nofun
  | word name => exact absurd rfl (he name)

theorem isOrdinary {e e' : Expr} (h : e.Traced e') (he : e.IsOrdinary) : e'.IsOrdinary := by
  cases h with
  | number | text | call | form | print => nofun
  | word name => exact he

end Traced

end Expr

/-- The special forms of two expressions of which one has inserted prints. -/
inductive Form.Traced : Form → Form → Prop where
  | choice {condition yes no condition' yes' no' : Expr} (hcondition : condition.Traced condition')
      (hyes : yes.Traced yes') (hno : no.Traced no') :
      Traced (.choice condition yes no) (.choice condition' yes' no')
  | loop {condition body condition' body' : Expr} (hcondition : condition.Traced condition')
      (hbody : body.Traced body') : Traced (.loop condition body) (.loop condition' body')
  | sequence {items items' : List Expr} (h : List.Forall₂ Expr.Traced items items') :
      Traced (.sequence items) (.sequence items')
  | define {name : Name} {e e' : Expr} (h : e.Traced e') : Traced (.define name e) (.define name e')
  | assign {name : Name} {e e' : Expr} (h : e.Traced e') : Traced (.assign name e) (.assign name e')
  | function {params : List Name} {body body' : Expr} (h : body.Traced body') :
      Traced (.function params body) (.function params body')

namespace SpecialForm

variable {form : SpecialForm} {args args' : List Expr}

theorem exists_singleton_of_traced {e : Expr} (h : List.Forall₂ Expr.Traced [e] args') :
    ∃ e', args' = [e'] ∧ e.Traced e' := by
  obtain ⟨e', rest, he, hrest, rfl⟩ := List.forall₂_cons_left_iff.mp h
  obtain rfl := List.forall₂_nil_left_iff.mp hrest
  exact ⟨e', rfl, he⟩

/-- The parameters of a function stay as they are. -/
theorem exists_body_of_traced {params : List Name} {body : Expr}
    (hargs : List.Forall₂ Expr.Traced (params.map .word ++ [body]) args')
    (hnames : ∀ i name, i < params.length → params[i]? = some name →
      args'[i]? = some (.word name)) :
    ∃ body', args' = params.map .word ++ [body'] ∧ body.Traced body' := by
  induction params generalizing args' with
  | nil => exact exists_singleton_of_traced hargs
  | cons name params ih =>
    obtain ⟨first, rest, -, hrest, rfl⟩ := List.forall₂_cons_left_iff.mp hargs
    have hfirst : some first = some (.word name) := hnames 0 name (Nat.zero_lt_succ _) rfl
    cases hfirst
    obtain ⟨body', rfl, hbody⟩ := ih hrest fun i m hi hm => hnames (i + 1) m (Nat.succ_lt_succ hi) hm
    exact ⟨body', rfl, hbody⟩

/-- What is wrong with the arguments is still wrong with them. -/
theorem misshapen_traced {misuse : Misuse} (hargs : List.Forall₂ Expr.Traced args args')
    (h : Misshapen form args misuse) : Misshapen form args' misuse := by
  have hlength := hargs.length_eq
  cases h with
  | choice h => exact .choice (hlength ▸ h)
  | loop h => exact .loop (hlength ▸ h)
  | binding hf h => exact .binding hf (hlength ▸ h)
  | target hf h =>
    obtain ⟨t', rest, ht, hrest, rfl⟩ := List.forall₂_cons_left_iff.mp hargs
    obtain ⟨e', rfl, -⟩ := exists_singleton_of_traced hrest
    exact .target hf (ht.ne_word h)
  | body =>
    obtain rfl := List.forall₂_nil_left_iff.mp hargs
    exact .body
  | @parameter params p body hp h =>
    have hparams := List.forall₂_take params.length hargs
    have hbody := List.forall₂_drop params.length hargs
    rw [List.take_left] at hparams
    rw [List.drop_left] at hbody
    obtain ⟨body', hdrop, -⟩ := exists_singleton_of_traced hbody
    obtain ⟨p', hp', hpp'⟩ := rel_mem_left hparams hp
    rw [← List.take_append_drop params.length args', hdrop]
    exact .parameter hp' (hpp'.ne_word h)

/-- Arguments with inserted prints have the right shape if and only if those without them have. -/
theorem shape_traced (hargs : List.Forall₂ Expr.Traced args args')
    (hnames : ∀ i name, form.TakesName args.length i → args[i]? = some (.word name) →
      args'[i]? = some (.word name)) :
    (∃ misuse, form.shape args = .error misuse ∧ form.shape args' = .error misuse) ∨
      ∃ shaped shaped', form.shape args = .ok shaped ∧ form.shape args' = .ok shaped' ∧
        shaped.Traced shaped' := by
  cases hshape : form.shape args with
  | error misuse =>
    have hwrong := misshapen_traced hargs (shape_eq_error_iff.mp hshape)
    exact .inl ⟨misuse, rfl, shape_eq_error_iff.mpr hwrong⟩
  | ok shaped =>
    refine .inr ?_
    obtain ⟨rfl, rfl⟩ := shape_eq_ok_iff.mp hshape
    cases shaped with
    | choice condition yes no =>
      obtain ⟨condition', rest, hcondition, hrest, rfl⟩ := List.forall₂_cons_left_iff.mp hargs
      obtain ⟨yes', rest, hyes, hlast, rfl⟩ := List.forall₂_cons_left_iff.mp hrest
      obtain ⟨no', rfl, hno⟩ := exists_singleton_of_traced hlast
      exact ⟨_, _, rfl, rfl, .choice hcondition hyes hno⟩
    | loop condition body =>
      obtain ⟨condition', rest, hcondition, hrest, rfl⟩ := List.forall₂_cons_left_iff.mp hargs
      obtain ⟨body', rfl, hbody⟩ := exists_singleton_of_traced hrest
      exact ⟨_, _, rfl, rfl, .loop hcondition hbody⟩
    | sequence items => exact ⟨_, _, rfl, rfl, .sequence hargs⟩
    | define name e =>
      obtain ⟨first, rest, -, hrest, rfl⟩ := List.forall₂_cons_left_iff.mp hargs
      obtain ⟨e', rfl, he⟩ := exists_singleton_of_traced hrest
      have hfirst : some first = some (.word name) := hnames 0 name rfl rfl
      cases hfirst
      exact ⟨_, _, rfl, rfl, .define he⟩
    | assign name e =>
      obtain ⟨first, rest, -, hrest, rfl⟩ := List.forall₂_cons_left_iff.mp hargs
      obtain ⟨e', rfl, he⟩ := exists_singleton_of_traced hrest
      have hfirst : some first = some (.word name) := hnames 0 name rfl rfl
      cases hfirst
      exact ⟨_, _, rfl, rfl, .assign he⟩
    | function params body =>
      have hwords : ∀ i name, i < params.length → params[i]? = some name →
          args'[i]? = some (.word name) := by
        intro i name hi hname
        refine hnames i name ?_ ?_
        · simpa [TakesName, Form.kind, Form.args] using hi
        · show (params.map .word ++ [body])[i]? = some (.word name)
          rw [List.getElem?_append_left (by simpa using hi), List.getElem?_map, hname]
          rfl
      obtain ⟨body', rfl, hbody⟩ := exists_body_of_traced hargs hwords
      have hshape' : SpecialForm.function.shape (params.map .word ++ [body']) =
          .ok (.function params body') := shape_eq_ok_iff.mpr ⟨rfl, rfl⟩
      exact ⟨_, _, rfl, hshape', .function hbody⟩

end SpecialForm

/-! ## Values and states -/

structure Closure.Traced (c c' : Closure) : Prop where
  scope : c.scope = c'.scope
  body : c.body.Traced c'.body

/-- The second value is the first one, but for prints that are inserted into the bodies of functions. -/
abbrev Value.Traced : Value → Value → Prop := Value.Like Eq Closure.Traced

theorem Value.resemblance_traced : Resemblance Value.Traced :=
  resemblance_like fun hx hy => hx.congr hy

theorem Value.Traced.refl (v : Value) : v.Traced v :=
  Value.like_self (fun _ => rfl) v fun _ c _ => ⟨rfl, .refl c.body⟩

/-- The states have the same scopes, which bind the same names to values that differ in inserted
prints only. What has been printed may differ. -/
structure State.Traced (s t : State) : Prop where
  heap : s.heap.Like Eq (fun _ => True) Value.Traced t.heap
  nextTag : s.nextTag = t.nextTag

namespace State.Traced

variable {s t : State}

theorem refl (s : State) : s.Traced s := ⟨.refl Value.Traced.refl s.heap, rfl⟩

theorem size_eq (hs : s.Traced t) : s.heap.size = t.heap.size := hs.heap.newScopes 0

theorem owner?_eq (hs : s.Traced t) (id : ScopeId) (name : Name) :
    s.heap.owner? id name = t.heap.owner? id name :=
  rel_eq (fun hab => hab) (hs.heap.owner? (a := id) rfl trivial)

theorem lookup? (hs : s.Traced t) (id : ScopeId) (name : Name) :
    Option.Rel Value.Traced (s.heap.lookup? id name) (t.heap.lookup? id name) :=
  hs.heap.lookup? rfl trivial

theorem define (hs : s.Traced t) (id : ScopeId) (name : Name) {v w : Value} (hvw : v.Traced w) :
    (s.define id name v).Traced (t.define id name w) :=
  ⟨hs.heap.define rfl name hvw, hs.nextTag⟩

/-- The parameters of a function are bound in the scope of a call. -/
theorem push (hs : s.Traced t) (params : List Name) {args args' : List Value}
    (hargs : List.Forall₂ Value.Traced args args') (parent : ScopeId) :
    (s.push (.ofList (params.zip args)) (some parent)).2.Traced
      (t.push (.ofList (params.zip args')) (some parent)).2 :=
  ⟨hs.heap.push (.ofList_zip params hargs) (.some rfl), hs.nextTag⟩

theorem newArray (hs : s.Traced t) {items items' : List Value}
    (hitems : List.Forall₂ Value.Traced items items') :
    (s.newArray items).1.Traced (t.newArray items').1 ∧
      (s.newArray items).2.Traced (t.newArray items').2 :=
  ⟨Value.like_array.mpr ⟨hs.nextTag, hitems⟩, hs.heap, congrArg (· + 1) hs.nextTag⟩

theorem newFunction (hs : s.Traced t) (params : List Name) {body body' : Expr}
    (h : body.Traced body') (scope : ScopeId) :
    (s.newFunction ⟨params, body, scope⟩).1.Traced (t.newFunction ⟨params, body', scope⟩).1 ∧
      (s.newFunction ⟨params, body, scope⟩).2.Traced (t.newFunction ⟨params, body', scope⟩).2 :=
  ⟨.function hs.nextTag rfl ⟨rfl, h⟩, hs.heap, congrArg (· + 1) hs.nextTag⟩

theorem printLine (hs : s.Traced t) (line : String) :
    (s.printLine line).Traced (t.printLine line) :=
  ⟨hs.heap, hs.nextTag⟩

/-- What is printed only with the inserted prints does not matter. -/
theorem printLine_right (hs : s.Traced t) (line : String) : s.Traced (t.printLine line) :=
  ⟨hs.heap, hs.nextTag⟩

end State.Traced

/-- A native function does the same with values that differ in inserted prints. -/
theorem Builtin.call_traced (b : Builtin) {s t : State} (hs : s.Traced t) {args args' : List Value}
    (hargs : List.Forall₂ Value.Traced args args') :
    Result.Resembles Value.Traced (b.call args s).1 (b.call args' t).1 ∧
      (b.call args s).2.Traced (b.call args' t).2 :=
  call_resembles Value.resemblance_traced (T := State.Traced) hs hs.printLine hs.newArray hargs b

end Egg
