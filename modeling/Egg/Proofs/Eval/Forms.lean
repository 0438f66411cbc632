import Mathlib.Data.List.Basic
import Egg.Proofs.Eval.Semantics

/-!
# Special forms and native functions obey their rules

What is decided without evaluating anything: which applications are special forms and whether they
have the right shape (`shape_eq_ok_iff`, `shape_eq_error_iff`), so that the machine takes them for what
they are (`Machine.enter_toExpr`), and what a native function does with arguments that have been
evaluated (`native_call`, `call_of_native`).
-/

namespace Egg

/-! ## Special words -/

namespace SpecialForm

theorem ofName?_eq_some {word : String} {form : SpecialForm} :
    ofName? word = some form ↔ word = form.name := by
  constructor
  · intro h
    simp only [ofName?] at h
    split_ifs at h
    all_goals
      cases h
      assumption
  · rintro rfl
    cases form <;> simp [ofName?, name]

theorem ofOperator?_eq_some {f : Expr} {form : SpecialForm} :
    ofOperator? f = some form ↔ f = .word form.name := by
  cases f with
  | word w => simp only [ofOperator?, ofName?_eq_some, Expr.word.injEq]
  | _ => simp [ofOperator?]

theorem ofOperator?_eq_none {f : Expr} : ofOperator? f = none ↔ f.IsOrdinary := by
  rw [Option.eq_none_iff_forall_ne_some]
  exact forall_congr' fun form => not_congr ofOperator?_eq_some

/-! ## Shapes -/

theorem parameters_eq_ok {params : List Expr} {names : List Name} :
    parameters params = .ok names ↔ params = names.map .word := by
  induction params generalizing names with
  | nil =>
    cases names with
    | nil => simp [parameters]
    | cons n ns => simp [parameters]
  | cons p params ih =>
    cases p with
    | word w =>
      simp only [parameters]
      cases hp : parameters params with
      | ok ws =>
        have hw := ih.mp hp
        cases names with
        | nil => simp [Except.map]
        | cons n ns =>
          rw [hw]
          simp [Except.map, List.map_inj_right (fun a b => Expr.word.inj)]
      | error m =>
        have hn : ∀ ns : List Name, params ≠ ns.map .word := fun ns h => by
          rw [ih.mpr h] at hp
          cases hp
        cases names with
        | nil => simp [Except.map]
        | cons n ns => simp [Except.map, hn ns]
    | _ => cases names <;> simp [parameters]

theorem parameters_eq_error {params : List Expr} {misuse : Misuse} :
    parameters params = .error misuse ↔
      misuse = .parameterNotWord ∧ ∃ p ∈ params, ∀ name, p ≠ .word name := by
  induction params with
  | nil => simp [parameters]
  | cons p params ih =>
    cases p with
    | word w =>
      have hmap : parameters (.word w :: params) = .error misuse ↔
          parameters params = .error misuse := by
        cases hp : parameters params <;> simp [parameters, hp, Except.map]
      rw [hmap, ih]
      simp
    | _ => simp [parameters, eq_comm]

end SpecialForm

namespace Form

/-- The special form that a shaped one is an instance of. -/
def kind : Form → SpecialForm
  | choice _ _ _ => .choice
  | loop _ _ => .loop
  | sequence _ => .sequence
  | define _ _ => .define
  | assign _ _ => .assign
  | function _ _ => .function

/-- The arguments of a shaped special form, as they stand in the source. -/
def args : Form → List Expr
  | choice condition yes no => [condition, yes, no]
  | loop condition body => [condition, body]
  | sequence items => items
  | define name value => [.word name, value]
  | assign name value => [.word name, value]
  | function params body => params.map .word ++ [body]

/-- A shaped special form as an expression. -/
def toExpr (form : Form) : Expr := .apply (.word form.kind.name) form.args

end Form

namespace SpecialForm

theorem functionShape_append (params : List Expr) (body : Expr) :
    functionShape (params ++ [body]) = (parameters params).map (.function · body) := by
  simp [functionShape]

/-- Exactly the arguments of shaped special forms have the right shape. -/
theorem shape_eq_ok_iff {form : SpecialForm} {args : List Expr} {shaped : Form} :
    form.shape args = .ok shaped ↔ form = shaped.kind ∧ args = shaped.args := by
  constructor
  · intro h
    unfold shape at h
    split at h
    · cases h; exact ⟨rfl, rfl⟩
    · cases h
    · cases h; exact ⟨rfl, rfl⟩
    · cases h
    · cases h; exact ⟨rfl, rfl⟩
    · unfold binding at h
      split at h
      · cases h; exact ⟨rfl, rfl⟩
      · cases h
      · cases h
    · unfold binding at h
      split at h
      · cases h; exact ⟨rfl, rfl⟩
      · cases h
      · cases h
    · rcases List.eq_nil_or_concat args with rfl | ⟨params, body, rfl⟩
      · cases h
      · rw [List.concat_eq_append] at h ⊢
        rw [functionShape_append] at h
        cases hp : parameters params with
        | ok names =>
          rw [hp] at h
          cases h
          exact ⟨rfl, by rw [parameters_eq_ok.mp hp]; rfl⟩
        | error misuse =>
          rw [hp] at h
          cases h
  · rintro ⟨rfl, rfl⟩
    cases shaped with
    | function params body =>
      simp [shape, Form.kind, Form.args, functionShape_append, parameters_eq_ok.mpr rfl, Except.map]
    | _ => rfl

theorem binding_eq_error_iff {form : SpecialForm} (hf : form = .define ∨ form = .assign)
    {args : List Expr} {misuse : Misuse} :
    binding args = .error misuse ↔ Misshapen form args misuse := by
  constructor
  · intro h
    unfold binding at h
    split at h
    · cases h
    · next t e hn =>
      cases h
      exact .target hf hn
    · next hword htwo =>
      cases h
      refine .binding hf fun hlen => ?_
      obtain ⟨t, e, rfl⟩ := List.length_eq_two.mp hlen
      exact htwo t e rfl
  · intro h
    cases h with
    | choice | loop | body | parameter => simp at hf
    | binding _ hn =>
      unfold binding
      split
      · exact absurd rfl hn
      · exact absurd rfl hn
      · rfl
    | target _ ht =>
      unfold binding
      split
      · next name _ heq =>
        cases heq
        exact absurd rfl (ht name)
      · rfl
      · next htwo => exact absurd rfl (htwo _ _)

theorem map_eq_error {α β : Type} {f : α → β} {x : Except Misuse α} {misuse : Misuse} :
    x.map f = .error misuse ↔ x = .error misuse := by
  cases x <;> simp [Except.map]

/-- Exactly the misshapen arguments are refused, and for the reason that is given. -/
theorem shape_eq_error_iff {form : SpecialForm} {args : List Expr} {misuse : Misuse} :
    form.shape args = .error misuse ↔ Misshapen form args misuse := by
  constructor
  · intro h
    unfold shape at h
    split at h
    · cases h
    · next hn =>
      cases h
      exact .choice fun hlen => by
        obtain ⟨x, y, z, rfl⟩ := List.length_eq_three.mp hlen
        exact hn x y z rfl
    · cases h
    · next hn =>
      cases h
      exact .loop fun hlen => by
        obtain ⟨x, y, rfl⟩ := List.length_eq_two.mp hlen
        exact hn x y rfl
    · cases h
    · exact (binding_eq_error_iff (.inl rfl)).mp (map_eq_error.mp h)
    · exact (binding_eq_error_iff (.inr rfl)).mp (map_eq_error.mp h)
    · rcases List.eq_nil_or_concat args with rfl | ⟨params, body, rfl⟩
      · cases h
        exact .body
      · rw [List.concat_eq_append] at h ⊢
        rw [functionShape_append, map_eq_error, parameters_eq_error] at h
        obtain ⟨rfl, p, hp, hw⟩ := h
        exact .parameter hp hw
  · intro h
    cases h with
    | choice hn =>
      rw [shape]
      rintro x y z rfl
      exact hn rfl
    | loop hn =>
      rw [shape]
      rintro x y rfl
      exact hn rfl
    | binding hf hn =>
      have hb := (binding_eq_error_iff hf).mpr (.binding hf hn)
      rcases hf with rfl | rfl <;> exact map_eq_error.mpr hb
    | @target _ t e hf ht =>
      have hb : binding [t, e] = .error .targetNotWord :=
        (binding_eq_error_iff hf).mpr (.target hf ht)
      rcases hf with rfl | rfl <;> exact map_eq_error.mpr hb
    | body => rfl
    | parameter hp hw =>
      rw [shape, functionShape_append, map_eq_error, parameters_eq_error]
      exact ⟨rfl, _, hp, hw⟩

end SpecialForm

theorem Form.ofOperator?_kind (form : Form) :
    SpecialForm.ofOperator? (.word form.kind.name) = some form.kind :=
  SpecialForm.ofOperator?_eq_some.mpr rfl

theorem Form.shape_args (form : Form) : form.kind.shape form.args = .ok form :=
  SpecialForm.shape_eq_ok_iff.mpr ⟨rfl, rfl⟩

/-- An expression that is a special form is taken for this form. -/
theorem Machine.enter_toExpr (form : Form) (scope : ScopeId) (stack : List Frame) (s : State) :
    enter form.toExpr scope stack s = begin form scope stack s := by
  simp only [enter, Form.toExpr, form.ofOperator?_kind, form.shape_args]

/-! ## Native functions -/

theorem Value.asNumber?_eq_none {v : Value} (hv : ∀ n, v ≠ .number n) : v.asNumber? = none := by
  cases v with
  | number n => exact absurd rfl (hv n)
  | _ => rfl

namespace Builtin

theorem numberArg_number (b : Builtin) (n : Number) : b.numberArg (.number n) = .ok n := rfl

theorem numberArg_of_ne {b : Builtin} {v : Value} (hv : ∀ n, v ≠ .number n) :
    b.numberArg v = .error (.typeMismatch b .number v.describe) := by
  rw [numberArg, Value.asNumber?_eq_none hv]

/-- A function of numbers obeys its rules, if it computes what it should. -/
theorem native_onNumbers {b : Builtin} (hb : b ∈ [.add, .sub, .mul, .div, .lt, .gt])
    {f : Number → Number → Value} (hf : ∀ m n, Computes b m n (f m n)) (x y : Value) (s : State) :
    Native b [x, y] s (b.onNumbers f x y) s := by
  cases x with
  | number m =>
    cases y with
    | number n => exact .numbers (hf m n)
    | _ => exact .secondOperand hb (by simp)
  | _ => exact .firstOperand hb (by simp)

theorem native_lengthOf (v : Value) (s : State) : Native .length [v] s (lengthOf v) s := by
  cases v with
  | array tag items => exact .length
  | _ => exact .lengthOperand (by simp)

theorem native_elementAt (v i : Value) (s : State) : Native .element [v, i] s (elementAt v i) s := by
  cases v with
  | array tag items =>
    cases i with
    | number n =>
      simp only [elementAt, numberArg_number]
      cases hn : n.toNat? with
      | none => exact .elementBounds (by simp [hn])
      | some k =>
        simp only [Option.bind_some]
        cases hk : items[k]? with
        | none => exact .elementBounds (by simpa [hn] using hk)
        | some v => exact .element hn hk
    | _ => exact .elementIndex (by simp)
  | _ => exact .elementOperand (by simp)

theorem native_arity_one {b : Builtin} (hb : b.arity = .exact 1) {args : List Value}
    (hargs : ∀ x, args = [x] → False) (s : State) :
    Native b args s (.error (.arityMismatch (Value.native b).describe b.arity.least args.length)) s := by
  rw [hb]
  refine .arity hb fun hlen => ?_
  obtain ⟨x, rfl⟩ := List.length_eq_one_iff.mp hlen
  exact hargs x rfl

theorem native_arity_two {b : Builtin} (hb : b.arity = .exact 2) {args : List Value}
    (hargs : ∀ x y, args = [x, y] → False) (s : State) :
    Native b args s (.error (.arityMismatch (Value.native b).describe b.arity.least args.length)) s := by
  rw [hb]
  refine .arity hb fun hlen => ?_
  obtain ⟨x, y, rfl⟩ := List.length_eq_two.mp hlen
  exact hargs x y rfl

/-- What a native function does is what the rules allow. -/
theorem native_call (b : Builtin) (args : List Value) (s : State) :
    Native b args s (b.call args s).1 (b.call args s).2 := by
  unfold call
  split
  · exact native_onNumbers (by simp) (fun _ _ => .add) _ _ s
  · exact native_onNumbers (by simp) (fun _ _ => .sub) _ _ s
  · exact native_onNumbers (by simp) (fun _ _ => .mul) _ _ s
  · exact native_onNumbers (by simp) (fun _ _ => .div) _ _ s
  · exact native_onNumbers (by simp) (fun _ _ => .lt) _ _ s
  · exact native_onNumbers (by simp) (fun _ _ => .gt) _ _ s
  · exact .eq
  · exact .print
  · exact .array
  · exact native_lengthOf _ s
  · exact native_elementAt _ _ s
  · next harray hadd hsub hmul hdiv hlt hgt heq hprint hlength helement =>
    cases b with
    | add => exact native_arity_two rfl (hadd · · rfl) s
    | sub => exact native_arity_two rfl (hsub · · rfl) s
    | mul => exact native_arity_two rfl (hmul · · rfl) s
    | div => exact native_arity_two rfl (hdiv · · rfl) s
    | eq => exact native_arity_two rfl (heq · · rfl) s
    | lt => exact native_arity_two rfl (hlt · · rfl) s
    | gt => exact native_arity_two rfl (hgt · · rfl) s
    | print => exact native_arity_one rfl (hprint · rfl) s
    | array => exact (harray rfl).elim
    | length => exact native_arity_one rfl (hlength · rfl) s
    | element => exact native_arity_two rfl (helement · · rfl) s

/-- The rules leave a native function no choice. -/
theorem call_of_native {b : Builtin} {args : List Value} {s s' : State} {r : Result}
    (h : Native b args s r s') : b.call args s = (r, s') := by
  cases h with
  | numbers hc => cases hc <;> rfl
  | firstOperand hb hx =>
    simp only [List.mem_cons, List.not_mem_nil, or_false] at hb
    rcases hb with rfl | rfl | rfl | rfl | rfl | rfl <;> simp [call, onNumbers, numberArg_of_ne hx]
  | secondOperand hb hy =>
    simp only [List.mem_cons, List.not_mem_nil, or_false] at hb
    rcases hb with rfl | rfl | rfl | rfl | rfl | rfl <;>
      simp [call, onNumbers, numberArg_number, numberArg_of_ne hy]
  | eq => rfl
  | print => rfl
  | array => rfl
  | length => rfl
  | @lengthOperand v _ hv =>
    cases v with
    | array tag items => exact absurd rfl (hv tag items)
    | _ => rfl
  | element hn hv => simp [call, elementAt, numberArg_number, hn, hv]
  | @elementBounds _ items n _ hn =>
    have hnone : n.toNat?.bind (items[·]?) = none := by
      rw [Option.bind_eq_none_iff]
      exact fun k hk => List.getElem?_eq_none (hn k hk)
    simp [call, elementAt, numberArg_number, hnone]
  | elementIndex hi => simp [call, elementAt, numberArg_of_ne hi]
  | @elementOperand v _ _ hv =>
    cases v with
    | array tag items => exact absurd rfl (hv tag items)
    | _ => rfl
  | arity hb hn =>
    unfold call
    split
    case h_9 => cases hb
    case h_12 =>
      rw [hb]
      rfl
    all_goals
      cases hb
      exact absurd rfl hn

end Builtin

end Egg
