import Egg.Expr.Printer
import Egg.Proofs.Expr.Leaves
import Egg.Proofs.Number.Denotation
import Mathlib

/-!
# Trees that are the same but for their numbers

Numbers can be compared in several ways, and each of them gives a way to compare trees
(`Expr.SameUpTo`). What holds of the comparison of numbers carries over: if it is symmetric or
transitive, so is that of trees, and a tree is related to itself if and only if each of its numbers
is. With numbers compared as values this is the equality of trees, which therefore is an equivalence
on the trees in which every number stands for a value, and trees that are equal are printed alike
(`Expr.beq_equivalence_and_display`).
-/

namespace Egg

/-- Lists whose members are related in two steps. -/
theorem forall₂_comp {α β γ : Type} {P : α → β → Prop} {Q : β → γ → Prop} {R : α → γ → Prop}
    (hR : ∀ a b c, P a b → Q b c → R a c) {as : List α} {bs : List β} {cs : List γ}
    (h : List.Forall₂ P as bs) (h' : List.Forall₂ Q bs cs) : List.Forall₂ R as cs := by
  induction h generalizing cs with
  | nil =>
    cases h'
    exact .nil
  | cons hab _ ih =>
    cases h' with
    | cons hbc hrest => exact .cons (hR _ _ _ hab hbc) (ih hrest)

namespace Expr

variable {R : Number → Number → Prop} {a b c : Expr}

/-- Trees of the same shape, with the same texts and words at the same places, and with related
numbers. -/
inductive SameUpTo (R : Number → Number → Prop) : Expr → Expr → Prop where
  | number {m n : Number} (h : R m n) : SameUpTo R (.number m) (.number n)
  | text (s : String) : SameUpTo R (.text s) (.text s)
  | word (name : Name) : SameUpTo R (.word name) (.word name)
  | apply {f g : Expr} {as bs : List Expr} (hf : SameUpTo R f g) (hlength : as.length = bs.length)
      (hargs : ∀ p ∈ as.zip bs, SameUpTo R p.1 p.2) : SameUpTo R (.apply f as) (.apply g bs)

theorem sameUpTo_apply {f g : Expr} {as bs : List Expr} :
    (apply f as).SameUpTo R (apply g bs) ↔
      f.SameUpTo R g ∧ List.Forall₂ (SameUpTo R) as bs := by
  constructor
  · intro h
    cases h with
    | apply hf hlength hargs =>
      exact ⟨hf, List.forall₂_iff_zip.mpr ⟨hlength, fun {x y} hxy => hargs (x, y) hxy⟩⟩
  · rintro ⟨hf, hargs⟩
    exact .apply hf hargs.length_eq fun p hp => (List.forall₂_iff_zip.mp hargs).2 hp

/-! ## What carries over from numbers to trees -/

theorem SameUpTo.symm (hR : ∀ m n, R m n → R n m) (h : a.SameUpTo R b) : b.SameUpTo R a := by
  induction h with
  | number h => exact .number (hR _ _ h)
  | text s => exact .text s
  | word name => exact .word name
  | apply _ hlength _ ihf ihargs =>
    have hflip := List.forall₂_iff_zip.mpr ⟨hlength, fun {x y} hxy => ihargs (x, y) hxy⟩
    exact sameUpTo_apply.mpr ⟨ihf, hflip.flip⟩

theorem SameUpTo.trans (hR : ∀ m n k, R m n → R n k → R m k) (h : a.SameUpTo R b)
    (h' : b.SameUpTo R c) : a.SameUpTo R c := by
  induction h generalizing c with
  | number h =>
    cases h' with
    | number h' => exact .number (hR _ _ _ h h')
  | text s => exact h'
  | word name => exact h'
  | apply _ hlength _ ihf ihargs =>
    cases h' with
    | apply hg hlength' hargs' =>
      have hfirst := List.forall₂_iff_zip.mpr ⟨hlength, fun {x y} hxy => @ihargs (x, y) hxy⟩
      have hsecond := List.forall₂_iff_zip.mpr ⟨hlength', fun {x y} hxy => hargs' (x, y) hxy⟩
      exact sameUpTo_apply.mpr ⟨ihf hg, forall₂_comp (fun x y z hxy hyz => hxy hyz) hfirst hsecond⟩

theorem sameUpTo_self_iff : a.SameUpTo R a ↔ ∀ n, .number n ∈ a.leaves → R n n := by
  induction a using Expr.induction with
  | number n =>
    constructor
    · intro h m hm
      cases List.mem_singleton.mp hm
      cases h with
      | number h => exact h
    · exact fun h => .number (h n (List.mem_singleton_self _))
  | text s => exact ⟨fun _ n hn => (by simp [leaves] at hn), fun _ => .text s⟩
  | word w => exact ⟨fun _ n hn => (by simp [leaves] at hn), fun _ => .word w⟩
  | apply f args ihf ihargs =>
    rw [sameUpTo_apply, List.forall₂_same, ihf, forall₂_congr ihargs]
    constructor
    · rintro ⟨hf, hargs⟩ n hn
      rcases mem_leaves_apply.mp hn with hn | ⟨e, he, hn⟩
      · exact hf n hn
      · exact hargs e he n hn
    · intro h
      exact ⟨fun n hn => h n (mem_leaves_apply.mpr (.inl hn)),
        fun e he n hn => h n (mem_leaves_apply.mpr (.inr ⟨e, he, hn⟩))⟩

theorem displayArgsTo_eq {as bs : List Expr}
    (h : List.Forall₂ (fun a b => ∀ rest, a.displayTo rest = b.displayTo rest) as bs)
    (rest : List Char) : displayArgsTo as rest = displayArgsTo bs rest := by
  induction h with
  | nil => rfl
  | cons hab hrest ih =>
    cases hrest with
    | nil => exact hab rest
    | cons hab' hrest =>
      rw [displayArgsTo, displayArgsTo, ih]
      exact hab _

theorem SameUpTo.displayTo_eq (hR : ∀ m n, R m n → m.display = n.display) (h : a.SameUpTo R b) :
    ∀ rest, a.displayTo rest = b.displayTo rest := by
  induction h with
  | number h =>
    intro rest
    rw [displayTo, displayTo, hR _ _ h]
  | text | word => exact fun rest => rfl
  | apply _ hlength _ ihf ihargs =>
    intro rest
    have hargs := List.forall₂_iff_zip.mpr ⟨hlength, fun {x y} hxy => ihargs (x, y) hxy⟩
    rw [displayTo, displayTo, displayArgsTo_eq hargs, ihf]

/-! ## Equality -/

theorem beqList_iff {as bs : List Expr} :
    beqList as bs = true ↔ List.Forall₂ (fun a b => (a == b) = true) as bs := by
  induction as generalizing bs with
  | nil => cases bs <;> simp [beqList]
  | cons a as ih =>
    cases bs with
    | nil => simp [beqList]
    | cons b bs =>
      rw [beqList, Bool.and_eq_true, ih, List.forall₂_cons]
      exact Iff.rfl

theorem SameUpTo.of_beq (h : (a == b) = true) : a.SameUpTo (fun m n => (m == n) = true) b := by
  induction b using Expr.induction generalizing a with
  | number n =>
    obtain ⟨m, rfl, hmn⟩ := exists_of_beq_number h
    exact .number hmn
  | text s =>
    obtain rfl := eq_of_beq_text h
    exact .text s
  | word w =>
    obtain rfl := eq_of_beq_word h
    exact .word w
  | apply g bs ihg ihbs =>
    cases a with
    | number | text | word => cases h
    | apply f as =>
      have hparts : (f.beq g && beqList as bs) = true := h
      rw [Bool.and_eq_true, beqList_iff, List.forall₂_iff_zip] at hparts
      obtain ⟨hf, hlength, hargs⟩ := hparts
      exact .apply (ihg hf) hlength fun p hp => ihbs p.2 (List.of_mem_zip hp).2 (hargs hp)

theorem SameUpTo.beq (h : a.SameUpTo (fun m n => (m == n) = true) b) : (a == b) = true := by
  induction h with
  | number h => exact h
  | text s => exact beq_self_eq_true s
  | word name => exact beq_self_eq_true name
  | @apply f g as bs _ hlength _ ihf ihargs =>
    change (f.beq g && beqList as bs) = true
    rw [Bool.and_eq_true, beqList_iff, List.forall₂_iff_zip]
    exact ⟨ihf, hlength, fun {x y} hxy => ihargs (x, y) hxy⟩

/-- Equality of trees compares their numbers as values. -/
theorem beq_iff_sameUpTo : (a == b) = true ↔ a.SameUpTo (fun m n => (m == n) = true) b :=
  ⟨SameUpTo.of_beq, SameUpTo.beq⟩

/-- Equality of trees is symmetric and transitive. A tree equals itself if and only if each of its
numbers stands for a value. Equal trees are printed alike. -/
theorem beq_equivalence_and_display :
    (∀ a b : Expr, (a == b) = true → (b == a) = true) ∧
    (∀ a b c : Expr, (a == b) = true → (b == c) = true → (a == c) = true) ∧
    (∀ a : Expr, (a == a) = true ↔ ∀ n, .number n ∈ a.leaves → n.isNaN = false) ∧
    (∀ a b : Expr, (a == b) = true → a.display = b.display) := by
  refine ⟨fun a b h => ?_, fun a b c h h' => ?_, fun a => ?_, fun a b h => ?_⟩
  · rw [beq_iff_sameUpTo] at h ⊢
    exact h.symm fun _ _ => Number.beq_symm
  · rw [beq_iff_sameUpTo] at h h' ⊢
    exact h.trans (fun _ _ _ => Number.beq_trans) h'
  · rw [beq_iff_sameUpTo, sameUpTo_self_iff]
    exact forall₂_congr fun n _ => Number.beq_self_iff
  · have hnumber : ∀ m n : Number, (m == n) = true → m.display = n.display := by
      intro m n heq
      exact Number.display_eq_display_iff.mpr (Number.beq_eq_true_iff.mp heq).2
    exact congrArg String.ofList ((beq_iff_sameUpTo.mp h).displayTo_eq hnumber [])

/-- Both are printed as `-(0, x)`. -/
theorem beq_equivalence_and_display_zeros :
    (apply (.word "-") [.number ⟨0⟩, .word "x"] ==
      apply (.word "-") [.number ⟨Number.signBit⟩, .word "x"]) = true ∧
    (apply (.word "-") [.number ⟨Number.signBit⟩, .word "x"] ==
      apply (.word "-") [.number ⟨Number.signBit⟩, .word "x"]) = true ∧
    (apply (.word "-") [.number ⟨Number.signBit⟩, .word "x"]).display =
      (apply (.word "-") [.number ⟨0⟩, .word "x"]).display := by
  obtain ⟨hsymm, htrans, -, hdisplay⟩ := beq_equivalence_and_display
  have heq : (apply (.word "-") [.number ⟨0⟩, .word "x"] ==
      apply (.word "-") [.number ⟨Number.signBit⟩, .word "x"]) = true := by decide
  have heq' := hsymm _ _ heq
  exact ⟨heq, htrans _ _ _ heq' heq, hdisplay _ _ heq'⟩

end Expr

end Egg
