import Egg.Proofs.Eval.WellFormed
import Mathlib

/-!
# Values that native functions cannot tell apart

Of an array a native function sees its items and whether it is the same array as another one, and of
a function of the program only how it is shown and whether it is the same one. A relation of values
that respects what can be seen is a *resemblance*. Native functions that are applied to arguments
which resemble each other come to results that do, and leave states behind that go together if those
before did (`Builtin.call_resembles`).
-/

namespace Egg

/-- The items of a value that is an array. -/
def Value.items? : Value → Option (List Value)
  | .array _ items => some items
  | .number _ | .text _ | .bool _ | .function _ _ | .native _ => none

/-- A relation of values that native functions respect. -/
structure Resemblance (R : Value → Value → Prop) : Prop where
  plain : ∀ {v}, v.IsPlain → R v v
  asNumber?_eq : ∀ {v w}, R v w → v.asNumber? = w.asNumber?
  display_eq : ∀ {v w}, R v w → v.display = w.display
  describe_eq : ∀ {v w}, R v w → v.describe = w.describe
  strictEq_eq : ∀ {v w v' w'}, R v v' → R w w' → v.strictEq w = v'.strictEq w'
  items : ∀ {v w}, R v w → Option.Rel (List.Forall₂ R) v.items? w.items?

/-- Results that resemble each other: errors are the same. -/
inductive Result.Resembles (R : Value → Value → Prop) : Result → Result → Prop where
  | ok {v w : Value} (h : R v w) : Resembles R (.ok v) (.ok w)
  | error (x : EvalError) : Resembles R (.error x) (.error x)

theorem rel_cases {α β : Type} {r : α → β → Prop} {x : Option α} {y : Option β}
    (h : Option.Rel r x y) : (x = none ∧ y = none) ∨ ∃ a b, x = some a ∧ y = some b ∧ r a b := by
  cases h with
  | none => exact .inl ⟨rfl, rfl⟩
  | some h => exact .inr ⟨_, _, rfl, rfl, h⟩

theorem rel_eq {α : Type} {r : α → α → Prop} (hr : ∀ {a b}, r a b → a = b) {x y : Option α}
    (h : Option.Rel r x y) : x = y := by
  rcases rel_cases h with ⟨rfl, rfl⟩ | ⟨a, b, rfl, rfl, hab⟩
  · rfl
  · rw [hr hab]

theorem rel_getElem? {α β : Type} {r : α → β → Prop} {xs : List α} {ys : List β}
    (h : List.Forall₂ r xs ys) (i : Nat) : Option.Rel r xs[i]? ys[i]? := by
  induction h generalizing i with
  | nil => exact .none
  | cons hxy _ ih =>
    cases i with
    | zero => exact .some hxy
    | succ i => exact ih i

theorem rel_mem_left {α β : Type} {r : α → β → Prop} {xs : List α} {ys : List β}
    (h : List.Forall₂ r xs ys) {x : α} (hx : x ∈ xs) : ∃ y ∈ ys, r x y := by
  induction h with
  | nil => cases hx
  | @cons a b _ _ hab _ ih =>
    rcases List.mem_cons.mp hx with rfl | hx
    · exact ⟨b, List.mem_cons_self, hab⟩
    · obtain ⟨y, hy, hxy⟩ := ih hx
      exact ⟨y, List.mem_cons_of_mem b hy, hxy⟩

theorem rel_singleton {α β : Type} {r : α → β → Prop} {xs : List α} {ys : List β}
    (h : List.Forall₂ r xs ys) (hlength : xs.length = 1) :
    ∃ x x', xs = [x] ∧ ys = [x'] ∧ r x x' := by
  obtain ⟨x, rfl⟩ := List.length_eq_one_iff.mp hlength
  cases h with
  | cons hx h =>
    cases h
    exact ⟨x, _, rfl, rfl, hx⟩

theorem rel_pair {α β : Type} {r : α → β → Prop} {xs : List α} {ys : List β}
    (h : List.Forall₂ r xs ys) (hlength : xs.length = 2) :
    ∃ x y x' y', xs = [x, y] ∧ ys = [x', y'] ∧ r x x' ∧ r y y' := by
  obtain ⟨x, y, rfl⟩ := List.length_eq_two.mp hlength
  cases h with
  | cons hx h =>
    cases h with
    | cons hy h =>
      cases h
      exact ⟨x, y, _, _, rfl, rfl, hx, hy⟩

namespace Builtin

theorem lengthOf_of_items? {v : Value} {items : List Value} (h : v.items? = some items) :
    lengthOf v = .ok (.number (.ofNat items.length)) := by
  cases v with
  | array tag items' =>
    cases h
    rfl
  | number | text | bool | function | native => cases h

theorem lengthOf_of_items?_none {v : Value} (h : v.items? = none) :
    lengthOf v = .error (.typeMismatch length .array v.describe) := by
  cases v with
  | array => cases h
  | number | text | bool | function | native => rfl

theorem elementAt_of_items? {v : Value} {items : List Value} (h : v.items? = some items)
    (index : Value) : elementAt v index = match element.numberArg index with
      | .error e => .error e
      | .ok n =>
        match n.toNat?.bind (items[·]?) with
        | some v => .ok v
        | none => .error (.indexOutOfBounds (String.ofList n.display) items.length) := by
  cases v with
  | array tag items' =>
    cases h
    rfl
  | number | text | bool | function | native => cases h

theorem elementAt_of_items?_none {v : Value} (h : v.items? = none) (index : Value) :
    elementAt v index = .error (.typeMismatch element .array v.describe) := by
  cases v with
  | array => cases h
  | number | text | bool | function | native => rfl

section

variable {R : Value → Value → Prop} (hR : Resemblance R) {v w v' w' : Value}
include hR

theorem numberArg_resembles (b : Builtin) (h : R v w) : b.numberArg v = b.numberArg w := by
  unfold numberArg
  rw [hR.asNumber?_eq h, hR.describe_eq h]

theorem onNumbers_resembles (b : Builtin) {f : Number → Number → Value}
    (hf : ∀ m n, (f m n).IsPlain) (hv : R v v') (hw : R w w') :
    Result.Resembles R (b.onNumbers f v w) (b.onNumbers f v' w') := by
  unfold onNumbers
  rw [← numberArg_resembles hR b hv, ← numberArg_resembles hR b hw]
  cases b.numberArg v with
  | error x => exact .error x
  | ok m =>
    cases b.numberArg w with
    | error x => exact .error x
    | ok n => exact .ok (hR.plain (hf m n))

theorem lengthOf_resembles (h : R v w) : Result.Resembles R (lengthOf v) (lengthOf w) := by
  rcases rel_cases (hR.items h) with ⟨hv, hw⟩ | ⟨items, items', hv, hw, hitems⟩
  · rw [lengthOf_of_items?_none hv, lengthOf_of_items?_none hw, hR.describe_eq h]
    exact .error _
  · rw [lengthOf_of_items? hv, lengthOf_of_items? hw, hitems.length_eq]
    exact .ok (hR.plain trivial)

theorem elementAt_resembles (hv : R v v') (hw : R w w') :
    Result.Resembles R (elementAt v w) (elementAt v' w') := by
  rcases rel_cases (hR.items hv) with ⟨hnone, hnone'⟩ | ⟨items, items', hsome, hsome', hitems⟩
  · rw [elementAt_of_items?_none hnone, elementAt_of_items?_none hnone', hR.describe_eq hv]
    exact .error _
  · rw [elementAt_of_items? hsome, elementAt_of_items? hsome', ← numberArg_resembles hR element hw,
      hitems.length_eq]
    cases element.numberArg w with
    | error x => exact .error x
    | ok n =>
      have hitem : Option.Rel R (n.toNat?.bind (items[·]?)) (n.toNat?.bind (items'[·]?)) := by
        cases n.toNat? with
        | none => exact .none
        | some i => exact rel_getElem? hitems i
      simp only
      rcases rel_cases hitem with ⟨hi, hi'⟩ | ⟨x, y, hi, hi', hxy⟩
      · rw [hi, hi']
        exact .error _
      · rw [hi, hi']
        exact .ok hxy

variable {T : State → State → Prop} {s t : State} (hT : T s t)
  (hprint : ∀ line, T (s.printLine line) (t.printLine line))
  (harray : ∀ {items items'}, List.Forall₂ R items items' →
    R (s.newArray items).1 (t.newArray items').1 ∧ T (s.newArray items).2 (t.newArray items').2)
  {args args' : List Value} (hargs : List.Forall₂ R args args')
include hT hprint hargs

theorem call_resembles_of_arity (b : Builtin) {n : Nat} (hb : b.arity = .exact n)
    (hlength : args.length = n) : Result.Resembles R (b.call args s).1 (b.call args' t).1 ∧
      T (b.call args s).2 (b.call args' t).2 := by
  cases b with
  | add | sub | mul | div | lt | gt =>
    cases hb
    obtain ⟨x, y, x', y', rfl, rfl, hx, hy⟩ := rel_pair hargs hlength
    refine ⟨onNumbers_resembles hR _ ?_ hx hy, hT⟩
    exact fun _ _ => trivial
  | eq =>
    cases hb
    obtain ⟨x, y, x', y', rfl, rfl, hx, hy⟩ := rel_pair hargs hlength
    refine ⟨?_, hT⟩
    simp only [call, hR.strictEq_eq hx hy]
    exact .ok (hR.plain trivial)
  | print =>
    cases hb
    obtain ⟨x, x', rfl, rfl, hx⟩ := rel_singleton hargs hlength
    refine ⟨.ok hx, ?_⟩
    simp only [call, hR.display_eq hx]
    exact hprint _
  | length =>
    cases hb
    obtain ⟨x, x', rfl, rfl, hx⟩ := rel_singleton hargs hlength
    exact ⟨lengthOf_resembles hR hx, hT⟩
  | element =>
    cases hb
    obtain ⟨x, y, x', y', rfl, rfl, hx, hy⟩ := rel_pair hargs hlength
    exact ⟨elementAt_resembles hR hx hy, hT⟩
  | array => cases hb

include harray

/-- A native function does the same with arguments that resemble each other. `T` says which states
go together; it must bear with a line that is printed in both, and with a new array in both. -/
theorem call_resembles (b : Builtin) : Result.Resembles R (b.call args s).1 (b.call args' t).1 ∧
    T (b.call args s).2 (b.call args' t).2 := by
  cases harity : b.arity with
  | variadic =>
    obtain rfl : b = array := by
      cases b with
      | array => rfl
      | add | sub | mul | div | eq | lt | gt | print | length | element => cases harity
    exact ⟨.ok (harray hargs).1, (harray hargs).2⟩
  | exact n =>
    by_cases hlength : args.length = n
    · exact call_resembles_of_arity hR hT hprint hargs b harity hlength
    · have hlength' : args'.length ≠ n := hargs.length_eq ▸ hlength
      rw [call_of_native (.arity harity hlength), call_of_native (.arity harity hlength'),
        hargs.length_eq]
      exact ⟨.error _, hT⟩

end

end Builtin

end Egg
