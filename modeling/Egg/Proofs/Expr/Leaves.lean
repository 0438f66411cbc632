import Egg.Expr.Basic

/-!
# The leaves of a tree

A tree is known by its shape and its leaves. Equality of trees is equality of shape with leaves that
are equal in pairs, so what equality keeps of a leaf it keeps of a tree.
-/

namespace Egg.Expr

/-- Induction over trees, with a hypothesis for the operator and one for each argument. -/
@[elab_as_elim]
theorem induction {motive : Expr → Prop} (number : ∀ n, motive (.number n))
    (text : ∀ s, motive (.text s)) (word : ∀ w, motive (.word w))
    (apply : ∀ f args, motive f → (∀ a ∈ args, motive a) → motive (.apply f args)) :
    ∀ e, motive e
  | .number n => number n
  | .text s => text s
  | .word w => word w
  | .apply f args =>
    apply f args (induction number text word apply f)
      fun a _ => induction number text word apply a

mutual

/-- The leaves of a tree, from left to right. -/
def leaves : Expr → List Expr
  | .number n => [.number n]
  | .text s => [.text s]
  | .word w => [.word w]
  | .apply f args => f.leaves ++ leavesList args

/-- The leaves of several trees. -/
def leavesList : List Expr → List Expr
  | [] => []
  | e :: es => e.leaves ++ leavesList es

end

theorem mem_leavesList {l : Expr} {es : List Expr} : l ∈ leavesList es ↔ ∃ e ∈ es, l ∈ e.leaves := by
  induction es with
  | nil => simp [leavesList]
  | cons e es ih => simp [leavesList, ih]

theorem mem_leaves_apply {l f : Expr} {args : List Expr} :
    l ∈ (Expr.apply f args).leaves ↔ l ∈ f.leaves ∨ ∃ a ∈ args, l ∈ a.leaves := by
  rw [leaves, List.mem_append, mem_leavesList]

/-! ## Equality -/

theorem beqList_map_iff {g : Expr → Expr} {es : List Expr} :
    beqList (es.map g) es = true ↔ ∀ e ∈ es, (g e == e) = true := by
  induction es with
  | nil => simp [beqList]
  | cons e es ih =>
    rw [List.map_cons, beqList, Bool.and_eq_true, ih, List.forall_mem_cons]
    rfl

theorem exists_mem_of_beqList {as bs : List Expr} (h : beqList as bs = true) {b : Expr}
    (hb : b ∈ bs) : ∃ a ∈ as, (a == b) = true := by
  induction bs generalizing as with
  | nil => cases hb
  | cons b' bs ih =>
    cases as with
    | nil => cases h
    | cons a as =>
      rw [beqList, Bool.and_eq_true] at h
      rcases List.mem_cons.mp hb with rfl | hb
      · exact ⟨a, List.mem_cons_self, h.1⟩
      · obtain ⟨a', ha', heq⟩ := ih h.2 hb
        exact ⟨a', List.mem_cons_of_mem a ha', heq⟩

/-- Every leaf of a tree is equal to a leaf of an equal tree. -/
theorem exists_leaf_of_beq {a b l : Expr} (h : (a == b) = true) (hl : l ∈ b.leaves) :
    ∃ l' ∈ a.leaves, (l' == l) = true := by
  induction b using Expr.induction generalizing a with
  | number n =>
    obtain rfl := List.mem_singleton.mp hl
    cases a with
    | number m => exact ⟨_, List.mem_singleton_self _, h⟩
    | text | word | apply => cases h
  | text s =>
    obtain rfl := List.mem_singleton.mp hl
    cases a with
    | text t => exact ⟨_, List.mem_singleton_self _, h⟩
    | number | word | apply => cases h
  | word w =>
    obtain rfl := List.mem_singleton.mp hl
    cases a with
    | word v => exact ⟨_, List.mem_singleton_self _, h⟩
    | number | text | apply => cases h
  | apply g bs ihg ihbs =>
    cases a with
    | number | text | word => cases h
    | apply f as =>
      have hparts : f.beq g && beqList as bs := h
      rw [Bool.and_eq_true] at hparts
      rcases mem_leaves_apply.mp hl with hl | ⟨b, hb, hl⟩
      · obtain ⟨l', hl', heq⟩ := ihg hparts.1 hl
        exact ⟨l', mem_leaves_apply.mpr (.inl hl'), heq⟩
      · obtain ⟨a, ha, hab⟩ := exists_mem_of_beqList hparts.2 hb
        obtain ⟨l', hl', heq⟩ := ihbs b hb hab hl
        exact ⟨l', mem_leaves_apply.mpr (.inr ⟨a, ha, hl'⟩), heq⟩

theorem eq_of_beq_word {l : Expr} {w : Name} (h : (l == .word w) = true) : l = .word w := by
  cases l with
  | word v => exact congrArg Expr.word (eq_of_beq h)
  | number | text | apply => cases h

theorem eq_of_beq_text {l : Expr} {s : String} (h : (l == .text s) = true) : l = .text s := by
  cases l with
  | text t => exact congrArg Expr.text (eq_of_beq h)
  | number | word | apply => cases h

theorem exists_of_beq_number {l : Expr} {n : Number} (h : (l == .number n) = true) :
    ∃ m, l = .number m ∧ (m == n) = true := by
  cases l with
  | number m => exact ⟨m, rfl, h⟩
  | text | word | apply => cases h

end Egg.Expr
