import Egg.Proofs.Eval.Identity
import Egg.Proofs.Expr.Equality
import Egg.Proofs.Value.Legibility
import Mathlib

/-!
# The two equalities of values

Programs compare arrays by identity, hosts compare them item by item. Both ways are symmetric and
transitive whatever the values are. That identical arrays also have equal items is a matter of the
state in which they occur: there a mark must not stand for two different arrays, and no number in
the array may be one that stands for no value, since it would not equal itself. That equal values
are displayed alike rests on the marks of functions in the same way. Marks are coherent in every
session and at every moment of an evaluation, so all this holds there
(`Session.equalities_agree`).
-/

namespace Egg

namespace Value

variable {a b c : Value}

/-- Induction over values, with a hypothesis for each item of an array. -/
@[elab_as_elim]
theorem induction {motive : Value → Prop}
    (array : ∀ x items, (∀ v ∈ items, motive v) → motive (.array x items))
    (other : ∀ v : Value, v.items? = none → motive v) : ∀ v, motive v
  | .array x items => array x items fun v _ => induction array other v
  | .number n => other (.number n) rfl
  | .text s => other (.text s) rfl
  | .bool x => other (.bool x) rfl
  | .function x f => other (.function x f) rfl
  | .native x => other (.native x) rfl

/-! ## Identity -/

/-- Values that programs cannot tell apart by comparing them. -/
inductive Identical : Value → Value → Prop where
  | number {m n : Number} (h : (m == n) = true) : Identical (.number m) (.number n)
  | text (s : String) : Identical (.text s) (.text s)
  | bool (x : Bool) : Identical (.bool x) (.bool x)
  | array (tag : Tag) (items items' : List Value) : Identical (.array tag items) (.array tag items')
  | function (tag : Tag) (f f' : Closure) : Identical (.function tag f) (.function tag f')
  | native (x : Builtin) : Identical (.native x) (.native x)

theorem Identical.of_strictEq (h : a.strictEq b = true) : a.Identical b := by
  cases a with
  | number m =>
    cases b with
    | number n => exact .number h
    | text | bool | array | function | native => cases h
  | text s =>
    cases b with
    | text t =>
      obtain rfl : s = t := eq_of_beq h
      exact .text s
    | number | bool | array | function | native => cases h
  | bool x =>
    cases b with
    | bool y =>
      obtain rfl : x = y := eq_of_beq h
      exact .bool x
    | number | text | array | function | native => cases h
  | array tag items =>
    cases b with
    | array tag' items' =>
      obtain rfl : tag = tag' := eq_of_beq h
      exact .array tag items items'
    | number | text | bool | function | native => cases h
  | function tag f =>
    cases b with
    | function tag' f' =>
      obtain rfl : tag = tag' := eq_of_beq h
      exact .function tag f f'
    | number | text | bool | array | native => cases h
  | native x =>
    cases b with
    | native y =>
      obtain rfl : x = y := eq_of_beq h
      exact .native x
    | number | text | bool | array | function => cases h

theorem strictEq_iff : a.strictEq b = true ↔ a.Identical b := by
  refine ⟨.of_strictEq, fun h => ?_⟩
  cases h with
  | number h => exact h
  | text | bool | array | function | native => exact beq_self_eq_true _

theorem Identical.symm (h : a.Identical b) : b.Identical a := by
  cases h with
  | number h => exact .number (Number.beq_symm h)
  | text s => exact .text s
  | bool x => exact .bool x
  | array tag items items' => exact .array tag items' items
  | function tag f f' => exact .function tag f' f
  | native x => exact .native x

theorem Identical.trans (h : a.Identical b) (h' : b.Identical c) : a.Identical c := by
  cases h with
  | number h =>
    cases h' with
    | number h' => exact .number (Number.beq_trans h h')
  | text | bool | native => exact h'
  | array tag items =>
    cases h' with
    | array _ _ items' => exact .array tag items items'
  | function tag f =>
    cases h' with
    | function _ _ f' => exact .function tag f f'

/-! ## Equality of content -/

/-- Values that hosts take for equal: arrays with equal items, or identical values that are not
arrays. -/
inductive Equal : Value → Value → Prop where
  | array {x y : Tag} {items items' : List Value} (hlength : items.length = items'.length)
      (h : ∀ p ∈ items.zip items', Equal p.1 p.2) : Equal (.array x items) (.array y items')
  | other {a b : Value} (hitems : a.items? = none) (h : a.Identical b) : Equal a b

theorem equal_array {x y : Tag} {items items' : List Value} :
    (array x items).Equal (array y items') ↔ List.Forall₂ Equal items items' := by
  constructor
  · intro h
    cases h with
    | array hlength h => exact List.forall₂_iff_zip.mpr ⟨hlength, fun {v w} hvw => h (v, w) hvw⟩
    | other hitems => cases hitems
  · intro h
    exact .array h.length_eq fun p hp => (List.forall₂_iff_zip.mp h).2 hp

theorem structuralEqList_iff {items items' : List Value} :
    structuralEqList items items' = true ↔
      List.Forall₂ (fun v w => v.structuralEq w = true) items items' := by
  induction items generalizing items' with
  | nil => cases items' <;> simp [structuralEqList]
  | cons v items ih =>
    cases items' with
    | nil => simp [structuralEqList]
    | cons w items' => rw [structuralEqList, Bool.and_eq_true, ih, List.forall₂_cons]

theorem structuralEq_of_items? (h : a.items? = none) : a.structuralEq b = a.strictEq b := by
  cases a with
  | array => cases h
  | number | text | bool | function | native => rfl

theorem Equal.of_structuralEq (h : a.structuralEq b = true) : a.Equal b := by
  induction a using Value.induction generalizing b with
  | array x items ih =>
    cases b with
    | array y items' =>
      have hitems : structuralEqList items items' = true := h
      rw [structuralEqList_iff, List.forall₂_iff_zip] at hitems
      exact .array hitems.1 fun p hp => ih p.1 (List.of_mem_zip hp).1 (hitems.2 hp)
    | number | text | bool | function | native => cases h
  | other a hitems =>
    rw [structuralEq_of_items? hitems] at h
    exact .other hitems (.of_strictEq h)

theorem structuralEq_iff : a.structuralEq b = true ↔ a.Equal b := by
  refine ⟨.of_structuralEq, fun h => ?_⟩
  induction h with
  | @array x y items items' hlength _ ih =>
    show structuralEqList items items' = true
    exact structuralEqList_iff.mpr
      (List.forall₂_iff_zip.mpr ⟨hlength, fun {v w} hvw => ih (v, w) hvw⟩)
  | other hitems h =>
    rw [structuralEq_of_items? hitems]
    exact strictEq_iff.mpr h

theorem Identical.items?_eq_none (h : a.Identical b) (hitems : a.items? = none) :
    b.items? = none := by
  cases h with
  | array => cases hitems
  | number | text | bool | function | native => rfl

theorem Equal.symm (h : a.Equal b) : b.Equal a := by
  induction h with
  | array hlength _ ih =>
    have hflip := List.forall₂_iff_zip.mpr ⟨hlength, fun {v w} hvw => ih (v, w) hvw⟩
    exact equal_array.mpr hflip.flip
  | other hitems h => exact .other (h.items?_eq_none hitems) h.symm

theorem Equal.trans (h : a.Equal b) (h' : b.Equal c) : a.Equal c := by
  induction h generalizing c with
  | @array x y items items' hlength _ ih =>
    cases h' with
    | array hlength' h' =>
      have hfirst := List.forall₂_iff_zip.mpr ⟨hlength, fun {v w} hvw => @ih (v, w) hvw⟩
      have hsecond := List.forall₂_iff_zip.mpr ⟨hlength', fun {v w} hvw => h' (v, w) hvw⟩
      exact equal_array.mpr (forall₂_comp (fun u v w huv hvw => huv hvw) hfirst hsecond)
    | other hitems => cases hitems
  | other hitems h =>
    cases h' with
    | array =>
      have hnone := h.items?_eq_none hitems
      cases hnone
    | other _ h' => exact .other hitems (h.trans h')

/-! ## Values without what is not a number -/

/-- No number in the value, at any depth of arrays, is one that stands for no value. -/
def NaNFree (v : Value) : Prop := ∀ n, (number n).Inside v → n.isNaN = false

theorem NaNFree.item {x : Tag} {items : List Value} (h : (array x items).NaNFree) {v : Value}
    (hv : v ∈ items) : v.NaNFree := fun n hn => h n (.item hv hn)

theorem NaNFree.equal_self (h : a.NaNFree) : a.Equal a := by
  induction a using Value.induction with
  | array x items ih =>
    exact equal_array.mpr (List.forall₂_same.mpr fun v hv => ih v hv (h.item hv))
  | other a hitems =>
    refine .other hitems ?_
    cases a with
    | number n => exact .number (Number.beq_self_iff.mpr (h n .self))
    | text s => exact .text s
    | bool x => exact .bool x
    | array => cases hitems
    | function x f => exact .function x f f
    | native x => exact .native x

/-! ## Values of one state -/

section Coherent

variable {P : Value → Prop}

/-- Identical arrays have the same items, so they are equal if these are equal to themselves. -/
theorem Identical.equal (hP : Coherent P) (ha : P a) (hb : P b) (hfree : a.NaNFree)
    (h : a.Identical b) : a.Equal b := by
  cases h with
  | array tag items items' =>
    obtain rfl := hP.arrays tag tag items items' ha hb (beq_self_eq_true tag)
    exact hfree.equal_self
  | number h => exact .other rfl (.number h)
  | text s => exact .other rfl (.text s)
  | bool x => exact .other rfl (.bool x)
  | function tag f f' => exact .other rfl (.function tag f f')
  | native x => exact .other rfl (.native x)

theorem Identical.sameContent (hP : Coherent P) (ha : P a) (hb : P b) (hitems : a.items? = none)
    (h : a.Identical b) : a.SameContent b := by
  cases h with
  | number h => exact .number (Number.beq_eq_true_iff.mp h).2
  | text s => exact .text s
  | bool x => exact .bool x
  | array => cases hitems
  | function tag f f' =>
    exact .function (hP.functions tag tag f f' ha hb (beq_self_eq_true tag)).1
  | native x => exact .native x

/-- Equal values have the same content, since identical functions have the same parameters. -/
theorem Equal.sameContent (hP : Coherent P) (hinside : ∀ v w, P w → v.Inside w → P v)
    (ha : P a) (hb : P b) (h : a.Equal b) : a.SameContent b := by
  induction h with
  | array hlength _ ih =>
    refine .array hlength fun p hp => ih p hp ?_ ?_
    · exact hinside _ _ ha (.item (List.of_mem_zip hp).1 .self)
    · exact hinside _ _ hb (.item (List.of_mem_zip hp).2 .self)
  | other hitems h => exact h.sameContent hP ha hb hitems

end Coherent

theorem SameContent.display_eq (h : a.SameContent b) : a.display = b.display := by
  have hnested := congrArg String.ofList (h.nestedTo_eq [])
  cases h with
  | text => rfl
  | number | bool | native | array | function => exact hnested

theorem SameContent.describe_eq (h : a.SameContent b) : a.describe = b.describe := by
  have hdisplay := h.display_eq
  cases h with
  | @number m n h =>
    show "number " ++ (Value.number m).display = "number " ++ (Value.number n).display
    rw [hdisplay]
  | text | bool | native => rfl
  | @array x y items items' hlength =>
    show "array of length " ++ items.length.repr = "array of length " ++ items'.length.repr
    rw [hlength]
  | function => exact hdisplay

end Value

/-- How the two equalities of the values in question go together, and with what is shown of the
values. -/
structure EqualitiesAgree (P : Value → Prop) : Prop where
  strict_symm : ∀ a b, P a → P b → a.strictEq b = true → b.strictEq a = true
  strict_trans : ∀ a b c, P a → P b → P c → a.strictEq b = true → b.strictEq c = true →
    a.strictEq c = true
  structural_symm : ∀ a b, P a → P b → a.structuralEq b = true → b.structuralEq a = true
  structural_trans : ∀ a b c, P a → P b → P c → a.structuralEq b = true →
    b.structuralEq c = true → a.structuralEq c = true
  structural_self : ∀ a, P a → a.NaNFree → a.structuralEq a = true
  structural_of_strict : ∀ a b, P a → P b → a.NaNFree → a.strictEq b = true →
    a.structuralEq b = true
  display_eq : ∀ a b, P a → P b → a.structuralEq b = true → a.display = b.display
  describe_eq : ∀ a b, P a → P b → a.structuralEq b = true → a.describe = b.describe

open Value in
/-- All that is needed are coherent marks. -/
theorem Coherent.equalitiesAgree {P : Value → Prop} (hP : Coherent P)
    (hinside : ∀ v w, P w → v.Inside w → P v) : EqualitiesAgree P where
  strict_symm := by
    intro a b _ _ h
    rw [strictEq_iff] at h ⊢
    exact h.symm
  strict_trans := by
    intro a b c _ _ _ h h'
    rw [strictEq_iff] at h h' ⊢
    exact h.trans h'
  structural_symm := by
    intro a b _ _ h
    rw [structuralEq_iff] at h ⊢
    exact h.symm
  structural_trans := by
    intro a b c _ _ _ h h'
    rw [structuralEq_iff] at h h' ⊢
    exact h.trans h'
  structural_self := by
    intro a _ hfree
    exact structuralEq_iff.mpr hfree.equal_self
  structural_of_strict := by
    intro a b ha hb hfree h
    rw [strictEq_iff] at h
    exact structuralEq_iff.mpr (h.equal hP ha hb hfree)
  display_eq := by
    intro a b ha hb h
    rw [structuralEq_iff] at h
    exact (h.sameContent hP hinside ha hb).display_eq
  describe_eq := by
    intro a b ha hb h
    rw [structuralEq_iff] at h
    exact (h.sameContent hP hinside ha hb).describe_eq

namespace Session

variable {σ : Session}

theorem Occurs.inside {v w : Value} (hw : σ.Occurs w) (h : v.Inside w) : σ.Occurs v := by
  rcases hw with ⟨u, hbinds, hin⟩ | ⟨u, hu, hin⟩
  · exact .inl ⟨u, hbinds, h.trans hin⟩
  · exact .inr ⟨u, hu, h.trans hin⟩

/-- In a session that has come about in any way, identity and equality of content are symmetric and
transitive. A value without what is not a number is equal to itself and to what it is identical
with. Equal values are displayed and described alike. This is so at every moment of the next
evaluation or application too. -/
theorem equalities_agree (h : σ.Reachable) : EqualitiesAgree σ.Occurs ∧
    ∀ c, σ.Moment c → EqualitiesAgree (fun v => c.Occurs v ∨ σ.Occurs v) := by
  have hσ := h.isMarked
  constructor
  · exact (Marked.coherent hσ).equalitiesAgree fun v w hw hin => hw.inside hin
  · intro c hc
    refine (hc.marked hσ).coherent.equalitiesAgree fun v w hw hin => ?_
    rcases hw with hw | hw
    · exact .inl (hw.inside hin)
    · exact .inr (hw.inside hin)

/-- Two arrays that differ in the sign of a zero and share a function. Both are displayed as
`[0, <function(x)>]`. -/
theorem equalities_agree_zeros_and_function :
    ∃ σ : Session, σ.Reachable ∧ ∃ a b, σ.Occurs a ∧ σ.Occurs b ∧
      a = .array 1 [.number ⟨0⟩, .function 0 ⟨["x"], .word "x", 0⟩] ∧
      b = .array 2 [.number ⟨Number.signBit⟩, .function 0 ⟨["x"], .word "x", 0⟩] ∧
      a.strictEq b = false ∧ b.structuralEq a = true ∧ a.display = b.display ∧
      a.NaNFree ∧ a.strictEq a = true ∧ a.structuralEq a = true := by
  have hroot := Reachable.step (.start .silent) .root
  have hfunction := hroot.step (.function ["x"] (.word "x") List.mem_cons_self)
  have hzero := hfunction.step (.plain (v := .number ⟨0⟩) trivial)
  have hminus := hzero.step (.plain (v := .number ⟨Number.signBit⟩) trivial)
  have hitems : ∀ v ∈ [Value.number ⟨0⟩, .function 0 ⟨["x"], .word "x", 0⟩],
      v ∈ [Value.number ⟨Number.signBit⟩, .number ⟨0⟩, .function 0 ⟨["x"], .word "x", 0⟩] := by
    simp
  have hfirst := hminus.step (.array hitems)
  have hitems' : ∀ v ∈ [Value.number ⟨Number.signBit⟩, .function 0 ⟨["x"], .word "x", 0⟩],
      v ∈ [Value.array 1 [.number ⟨0⟩, .function 0 ⟨["x"], .word "x", 0⟩],
        .number ⟨Number.signBit⟩, .number ⟨0⟩, .function 0 ⟨["x"], .word "x", 0⟩] := by
    simp
  obtain ⟨σ, hσ, ha, hb⟩ : ∃ σ : Session, σ.Reachable ∧
      σ.Occurs (.array 1 [.number ⟨0⟩, .function 0 ⟨["x"], .word "x", 0⟩]) ∧
      σ.Occurs (.array 2 [.number ⟨Number.signBit⟩, .function 0 ⟨["x"], .word "x", 0⟩]) :=
    ⟨_, hfirst.step (.array hitems'), .inr ⟨_, .tail _ (.head _), .self⟩, .inr ⟨_, .head _, .self⟩⟩
  have hfree : (Value.array 1 [.number ⟨0⟩, .function 0 ⟨["x"], .word "x", 0⟩]).NaNFree := by
    intro n hn
    cases hn with
    | item hv hin =>
      rcases List.mem_cons.mp hv with rfl | hv
      · cases hin
        rfl
      · obtain rfl := List.mem_singleton.mp hv
        cases hin
  obtain ⟨hagree, -⟩ := equalities_agree hσ
  exact ⟨σ, hσ, _, _, ha, hb, rfl, rfl, rfl, hagree.structural_symm _ _ ha hb rfl,
    hagree.display_eq _ _ ha hb rfl, hfree, rfl, hagree.structural_of_strict _ _ ha ha hfree rfl⟩

end Session

end Egg
