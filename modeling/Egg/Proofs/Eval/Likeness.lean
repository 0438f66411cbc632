import Egg.Proofs.Eval.Assignment
import Egg.Proofs.Eval.Resemblance
import Mathlib

/-!
# Likeness of values and of heaps

Two evaluations are compared by relating what they come upon. Values are *like* each other if they
differ only in the marks of arrays and functions, which are related one to one, and in the functions
of the program, which are related in a way that is left open here except for their parameters. Such
values resemble each other (`Value.resemblance_like`). Heaps are like each other if related scopes
bind the names that matter to related values. Then a search for a name goes the same way in both
(`Heap.Like.owner?`), and they stay like each other when related values are bound and when related
scopes are made.
-/

namespace Egg

/-! ## Values -/

/-- Values that differ in marks and in functions of the program only. -/
inductive Value.Like (mark : Tag → Tag → Prop) (closure : Closure → Closure → Prop) :
    Value → Value → Prop where
  | number (n : Number) : Like mark closure (.number n) (.number n)
  | text (t : String) : Like mark closure (.text t) (.text t)
  | bool (b : Bool) : Like mark closure (.bool b) (.bool b)
  | native (b : Builtin) : Like mark closure (.native b) (.native b)
  | array {x y : Tag} {items items' : List Value} (hmark : mark x y)
      (hlength : items.length = items'.length)
      (h : ∀ p ∈ items.zip items', Like mark closure p.1 p.2) :
      Like mark closure (.array x items) (.array y items')
  | function {x y : Tag} {c c' : Closure} (hmark : mark x y) (hparams : c.params = c'.params)
      (h : closure c c') : Like mark closure (.function x c) (.function y c')

namespace Value

variable {mark : Tag → Tag → Prop} {closure : Closure → Closure → Prop}

theorem like_array {x y : Tag} {items items' : List Value} :
    (array x items).Like mark closure (array y items') ↔
      mark x y ∧ List.Forall₂ (Like mark closure) items items' := by
  constructor
  · intro h
    cases h with
    | array hmark hlength h =>
      exact ⟨hmark, List.forall₂_iff_zip.mpr ⟨hlength, fun {v w} hvw => h (v, w) hvw⟩⟩
  · rintro ⟨hmark, hitems⟩
    exact .array hmark hitems.length_eq fun p hp => (List.forall₂_iff_zip.mp hitems).2 hp

theorem IsPlain.like {v : Value} (hv : v.IsPlain) : v.Like mark closure v := by
  cases v with
  | number n => exact .number n
  | text t => exact .text t
  | bool b => exact .bool b
  | native b => exact .native b
  | array | function => cases hv

/-- A value is like itself if its marks and the functions inside of it are. -/
theorem like_self (hmark : ∀ x, mark x x) : ∀ v : Value,
    (∀ tag c, (function tag c).Inside v → closure c c) → v.Like mark closure v
  | .number n, _ => .number n
  | .text t, _ => .text t
  | .bool b, _ => .bool b
  | .native b, _ => .native b
  | .function tag c, h => .function (hmark tag) rfl (h tag c .self)
  | .array tag items, h => by
    refine like_array.mpr ⟨hmark tag, List.forall₂_same.mpr fun v hv => ?_⟩
    exact like_self hmark v fun tag' c hin => h tag' c (.item hv hin)

theorem nestedItemsTo_eq {items items' : List Value} (hlength : items.length = items'.length)
    (h : ∀ p ∈ items.zip items', ∀ rest, p.1.nestedTo rest = p.2.nestedTo rest)
    (rest : List Char) : nestedItemsTo items rest = nestedItemsTo items' rest := by
  induction items generalizing items' with
  | nil =>
    obtain rfl := List.length_eq_zero_iff.mp hlength.symm
    rfl
  | cons v items ih =>
    cases items' with
    | nil => cases hlength
    | cons w items' =>
      obtain ⟨hv, hitems⟩ := List.forall_mem_cons.mp h
      have hrest := ih (Nat.succ.inj hlength) hitems
      cases items with
      | nil =>
        obtain rfl := List.length_eq_zero_iff.mp (Nat.succ.inj hlength).symm
        exact hv rest
      | cons v' items =>
        cases items' with
        | nil => cases hlength
        | cons w' items' =>
          show v.nestedTo (',' :: ' ' :: nestedItemsTo (v' :: items) rest) =
            w.nestedTo (',' :: ' ' :: nestedItemsTo (w' :: items') rest)
          rw [hrest]
          exact hv _

theorem nestedTo_array_eq {x y : Tag} {items items' : List Value}
    (hlength : items.length = items'.length)
    (h : ∀ p ∈ items.zip items', ∀ rest, p.1.nestedTo rest = p.2.nestedTo rest)
    (rest : List Char) : (array x items).nestedTo rest = (array y items').nestedTo rest := by
  show '[' :: nestedItemsTo items (']' :: rest) = '[' :: nestedItemsTo items' (']' :: rest)
  rw [nestedItemsTo_eq hlength h]

theorem nestedTo_function_eq {x y : Tag} {c c' : Closure} (h : c.params = c'.params)
    (rest : List Char) : (function x c).nestedTo rest = (function y c').nestedTo rest := by
  show "<function(".toList ++ namesTo c.params (')' :: '>' :: rest) =
    "<function(".toList ++ namesTo c'.params (')' :: '>' :: rest)
  rw [h]

namespace Like

variable {v w v' w' : Value}

theorem nestedTo_eq (h : v.Like mark closure w) : ∀ rest, v.nestedTo rest = w.nestedTo rest := by
  induction h with
  | number | text | bool | native => exact fun rest => rfl
  | array _ hlength _ ih => exact nestedTo_array_eq hlength ih
  | function _ hparams => exact nestedTo_function_eq hparams

theorem display_eq (h : v.Like mark closure w) : v.display = w.display := by
  have hnested := h.nestedTo_eq []
  cases h with
  | number | text | bool | native => rfl
  | array | function => exact congrArg String.ofList hnested

theorem describe_eq (h : v.Like mark closure w) : v.describe = w.describe := by
  have hdisplay := h.display_eq
  cases h with
  | number | text | bool | native => rfl
  | @array x y items items' hmark hlength h =>
    show "array of length " ++ items.length.repr = "array of length " ++ items'.length.repr
    rw [hlength]
  | function => exact hdisplay

theorem isTruthy_eq (h : v.Like mark closure w) : v.isTruthy = w.isTruthy := by
  cases h <;> rfl

theorem isCallable_eq (h : v.Like mark closure w) : v.isCallable = w.isCallable := by
  cases h <;> rfl

theorem asNumber?_eq (h : v.Like mark closure w) : v.asNumber? = w.asNumber? := by
  cases h <;> rfl

theorem eq_of_isPlain (h : v.Like mark closure w) (hw : w.IsPlain) : v = w := by
  cases h with
  | number | text | bool | native => rfl
  | array | function => cases hw

/-- Marks are the same on one side if and only if they are on the other. -/
theorem strictEq_eq (hmark : ∀ {x y x' y'}, mark x y → mark x' y' → (x = x' ↔ y = y'))
    (hv : v.Like mark closure v') (hw : w.Like mark closure w') :
    v.strictEq w = v'.strictEq w' := by
  cases hv with
  | number | text | bool | native => cases hw <;> rfl
  | array hx =>
    cases hw with
    | number | text | bool | native | function => rfl
    | array hy =>
      rw [Bool.eq_iff_iff]
      simpa only [strictEq, beq_iff_eq] using hmark hx hy
  | function hx =>
    cases hw with
    | number | text | bool | native | array => rfl
    | function hy =>
      rw [Bool.eq_iff_iff]
      simpa only [strictEq, beq_iff_eq] using hmark hx hy

end Like

/-- Values that are like each other cannot be told apart by native functions. -/
theorem resemblance_like (hmark : ∀ {x y x' y'}, mark x y → mark x' y' → (x = x' ↔ y = y')) :
    Resemblance (Like mark closure) where
  plain hv := hv.like
  asNumber?_eq h := h.asNumber?_eq
  display_eq h := h.display_eq
  describe_eq h := h.describe_eq
  strictEq_eq hv hw := hv.strictEq_eq hmark hw
  items h := by
    cases h with
    | number | text | bool | native | function => exact .none
    | array hmark hlength h => exact .some (like_array.mp (.array hmark hlength h)).2

end Value

/-! ## Bindings -/

/-- Bindings to related values, as far as names matter. -/
def Bindings.Like (name : Name → Prop) (R : Value → Value → Prop) (b b' : Bindings) : Prop :=
  ∀ n, name n → Option.Rel R (b.find? n) (b'.find? n)

variable {name : Name → Prop} {R : Value → Value → Prop}

theorem entryValue?_like {entries entries' : List (Name × Value)}
    (h : List.Forall₂ (fun p q => p.1 = q.1 ∧ R p.2 q.2) entries entries') (n : Name) :
    Option.Rel R (entryValue? n entries) (entryValue? n entries') := by
  induction h with
  | nil => exact .none
  | @cons p q _ _ hpq _ ih =>
    obtain ⟨m, v⟩ := p
    obtain ⟨m', w⟩ := q
    obtain ⟨rfl, hvw⟩ : m = m' ∧ R v w := hpq
    simp only [entryValue?]
    split
    · exact .some hvw
    · exact ih

namespace Bindings.Like

variable {b b' : Bindings}

theorem empty : Like name R .empty .empty := fun _ _ => .none

/-- What every program finds is like itself. -/
theorem global (hR : ∀ v, v.IsPlain → R v v) : Like name R .global .global := by
  intro n _
  cases hfind : Bindings.global.find? n with
  | none => exact .none
  | some v => exact .some (hR v (isPlain_global hfind))

theorem insert (h : Like name R b b') (n : Name) {v w : Value} (hvw : R v w) :
    Like name R (b.insert n v) (b'.insert n w) := by
  intro m hm
  rw [find?_insert, find?_insert]
  by_cases hn : m = n
  · rw [if_pos hn, if_pos hn]
    exact .some hvw
  · rw [if_neg hn, if_neg hn]
    exact h m hm

theorem binds_eq (h : Like name R b b') {n : Name} (hn : name n) : b.binds n = b'.binds n := by
  have hrel := h n hn
  unfold binds
  generalize b.find? n = x at hrel ⊢
  generalize b'.find? n = y at hrel ⊢
  cases hrel <;> rfl

/-- The parameters of a function are bound to related arguments. -/
theorem ofList_zip (params : List Name) {args args' : List Value} (hargs : List.Forall₂ R args args') :
    Like name R (ofList (params.zip args)) (ofList (params.zip args')) := by
  have hzip : List.Forall₂ (fun p q => p.1 = q.1 ∧ R p.2 q.2)
      (params.zip args) (params.zip args') := by
    induction hargs generalizing params with
    | nil => simp
    | cons hvw _ ih =>
      cases params with
      | nil => exact .nil
      | cons n params => exact .cons ⟨rfl, hvw⟩ (ih params)
  intro n _
  rw [find?_ofList, find?_ofList]
  exact entryValue?_like (List.rel_reverse hzip) n

end Bindings.Like

/-! ## Heaps -/

structure Scope.Like (scope : ScopeId → ScopeId → Prop) (name : Name → Prop)
    (R : Value → Value → Prop) (here there : Scope) : Prop where
  bindings : here.bindings.Like name R there.bindings
  parent : Option.Rel scope here.parent there.parent

/-- Heaps whose related scopes are like each other. The places that are not in use yet are related in
the order in which they will be used. -/
structure Heap.Like (scope : ScopeId → ScopeId → Prop) (name : Name → Prop)
    (R : Value → Value → Prop) (h h' : Heap) : Prop where
  unique : ∀ {a b a' b'}, scope a b → scope a' b' → (a = a' ↔ b = b')
  scopes : ∀ {a b}, scope a b → Option.Rel (Scope.Like scope name R) (h.get? a) (h'.get? b)
  /-- A link is followed in one heap if and only if it is followed in the other. -/
  links : ∀ {a b here there p q}, scope a b → h.get? a = some here → h'.get? b = some there →
    here.parent = some p → there.parent = some q → (p < a ↔ q < b)
  newScopes : ∀ k, scope (h.size + k) (h'.size + k)

namespace Heap.Like

variable {scope : ScopeId → ScopeId → Prop} {h h' : Heap} {a b : ScopeId}

theorem refl (hR : ∀ v, R v v) (h : Heap) : Like Eq name R h h where
  unique hab hab' := hab.congr hab'
  scopes hab := by
    subst hab
    cases h.get? _ with
    | none => exact .none
    | some scope =>
      refine .some ⟨fun n _ => ?_, ?_⟩
      · cases scope.bindings.find? n with
        | none => exact .none
        | some v => exact .some (hR v)
      · cases scope.parent with
        | none => exact .none
        | some p => exact .some rfl
  links hab ha hb hp hq := by
    subst hab
    rw [ha] at hb
    cases hb
    rw [hp] at hq
    cases hq
    exact Iff.rfl
  newScopes _ := rfl

/-- Scopes that exist are related to scopes that exist. -/
theorem lt_size_iff (hh : Like scope name R h h') (hab : scope a b) : a < h.size ↔ b < h'.size := by
  constructor
  · intro ha
    by_contra hb
    obtain ⟨k, hk⟩ := Nat.exists_eq_add_of_le (Nat.le_of_not_lt hb)
    rw [(hh.unique hab (hh.newScopes k)).mpr hk] at ha
    exact Nat.not_lt_of_le (Nat.le_add_right _ _) ha
  · intro hb
    by_contra ha
    obtain ⟨k, hk⟩ := Nat.exists_eq_add_of_le (Nat.le_of_not_lt ha)
    rw [(hh.unique hab (hh.newScopes k)).mp hk] at hb
    exact Nat.not_lt_of_le (Nat.le_add_right _ _) hb

theorem eq_size_iff (hh : Like scope name R h h') (hab : scope a b) : a = h.size ↔ b = h'.size :=
  hh.unique hab (hh.newScopes 0)

/-- The search for a name goes the same way. -/
theorem owner? (hh : Like scope name R h h') (hab : scope a b) {n : Name} (hn : name n) :
    Option.Rel scope (h.owner? a n) (h'.owner? b n) := by
  induction a using Nat.strongRecOn generalizing b with
  | ind a ih =>
    rw [Heap.owner?, Heap.owner?]
    rcases rel_cases (hh.scopes hab) with ⟨ha, hb⟩ | ⟨here, there, ha, hb, hscope⟩
    · rw [ha, hb]
      exact .none
    · rw [ha, hb]
      simp only [← hscope.bindings.binds_eq hn]
      split
      · exact .some hab
      · rcases rel_cases hscope.parent with ⟨hp, hq⟩ | ⟨p, q, hp, hq, hpq⟩
        · rw [hp, hq]
          exact .none
        · rw [hp, hq]
          have hlink := hh.links hab ha hb hp hq
          by_cases hlt : p < a
          · simp only [if_pos hlt, if_pos (hlink.mp hlt)]
            exact ih p hlt hpq
          · simp only [if_neg hlt, if_neg (fun hq => hlt (hlink.mpr hq))]
            exact .none

theorem lookup? (hh : Like scope name R h h') (hab : scope a b) {n : Name} (hn : name n) :
    Option.Rel R (h.lookup? a n) (h'.lookup? b n) := by
  unfold Heap.lookup?
  rcases rel_cases (hh.owner? hab hn) with ⟨ha, hb⟩ | ⟨owner, owner', ha, hb, howner⟩
  · rw [ha, hb]
    exact .none
  · rw [ha, hb]
    simp only
    rcases rel_cases (hh.scopes howner) with ⟨ha, hb⟩ | ⟨here, there, ha, hb, hscope⟩
    · rw [ha, hb]
      exact .none
    · rw [ha, hb]
      exact hscope.bindings n hn

theorem define (hh : Like scope name R h h') (hab : scope a b) (n : Name) {v w : Value}
    (hvw : R v w) : Like scope name R (h.define a n v) (h'.define b n w) where
  unique := hh.unique
  scopes {a' b'} hab' := by
    rw [get?_define, get?_define]
    by_cases ha : a = a'
    · rw [if_pos ha, if_pos ((hh.unique hab hab').mp ha)]
      rcases rel_cases (hh.scopes hab') with ⟨ha, hb⟩ | ⟨here, there, ha, hb, hscope⟩
      · rw [ha, hb]
        exact .none
      · rw [ha, hb]
        exact .some ⟨hscope.bindings.insert n hvw, hscope.parent⟩
    · rw [if_neg ha, if_neg fun hb => ha ((hh.unique hab hab').mpr hb)]
      exact hh.scopes hab'
  links {a' b' here there p q} hab' ha hb hp hq := by
    -- the links are those of the scopes before
    obtain ⟨here₀, ha₀, hp₀, -⟩ := exists_of_get?_define ha
    obtain ⟨there₀, hb₀, hq₀, -⟩ := exists_of_get?_define hb
    exact hh.links hab' ha₀ hb₀ (hp₀.symm.trans hp) (hq₀.symm.trans hq)
  newScopes k := by
    rw [size_define, size_define]
    exact hh.newScopes k

theorem push (hh : Like scope name R h h') {bindings bindings' : Bindings}
    {parent parent' : Option ScopeId} (hb : bindings.Like name R bindings')
    (hp : Option.Rel scope parent parent') :
    Like scope name R (h.push bindings parent) (h'.push bindings' parent') where
  unique := hh.unique
  scopes {a b} hab := by
    have hnew := hh.eq_size_iff hab
    rw [get?_push, get?_push]
    by_cases ha : a = h.size
    · rw [if_pos ha, if_pos (hnew.mp ha)]
      exact .some ⟨hb, hp⟩
    · rw [if_neg ha, if_neg fun hb => ha (hnew.mpr hb)]
      exact hh.scopes hab
  links {a b here there p q} hab ha hb hpar hqar := by
    have hnew := hh.eq_size_iff hab
    rw [get?_push] at ha hb
    by_cases heq : a = h.size
    · rw [if_pos heq] at ha
      rw [if_pos (hnew.mp heq)] at hb
      cases ha
      cases hb
      subst hpar hqar
      cases hp with
      | some hpq =>
        have hlt := hh.lt_size_iff hpq
        rwa [← heq, ← hnew.mp heq] at hlt
    · rw [if_neg heq] at ha
      rw [if_neg fun hb => heq (hnew.mpr hb)] at hb
      exact hh.links hab ha hb hpar hqar
  newScopes k := by
    rw [size_push, size_push, Nat.add_assoc, Nat.add_assoc]
    exact hh.newScopes (1 + k)

end Heap.Like

end Egg
