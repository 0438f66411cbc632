import Egg.Proofs.Syntax.CanonicalForm
import Mathlib

/-!
# The trees that have a source

Which trees does the parser give? Words, texts and numbers must be such as the scanners find, and
that is all: from such leaves every tree can be written down. Printing alone does not show this, since
an infinite number is printed as a word. Here it is written as a numeral that is too large, and any
other number as the numeral of the natural number that it is.
-/

namespace Egg

open Syntax (parse)
open Syntax.Grammar

/-! ## Numerals -/

namespace Number

/-- What a numeral can denote: positive zero, a positive integer, or positive infinity. -/
def IsNumeral (n : Number) : Prop :=
  n = ⟨0⟩ ∨ (n.IsFinite ∧ (∃ z : ℤ, n.value = z) ∧ 0 < n.value) ∨ n = .infinity

theorem isNumeral_ofNat (k : Nat) : (ofNat k).IsNumeral := by
  rcases ofNat_isNatural_or_eq_infinity k with hnatural | heq
  · cases hzero : (ofNat k).isZero with
    | true => exact .inl (ofNat_eq_zero hzero)
    | false =>
      have hpos := value_pos (isNegative_ofNat k) hzero
      exact .inr (.inl ⟨hnatural.finite, hnatural.integral, hpos⟩)
  · exact .inr (.inr heq)

theorem IsNumeral.exists_ofNat {n : Number} (h : n.IsNumeral) : ∃ k, n = ofNat k := by
  rcases h with rfl | ⟨hfinite, hintegral, hpos⟩ | rfl
  · exact ⟨0, rfl⟩
  · have hzero : n.isZero = false := by
      cases hzero : n.isZero with
      | false => rfl
      | true =>
        rw [value_eq_zero hzero] at hpos
        exact absurd hpos (lt_irrefl 0)
    have hnatural : n.IsNatural := ⟨hfinite, hintegral, hpos.le⟩
    obtain ⟨k, -, hk⟩ := hnatural.display_eq hzero
    exact ⟨k, hk.symm⟩
  · -- the numeral with 310 digits is read as infinity, and has a value before it is rounded
    exact (Expr.Written.of_parse Expr.parse_large_numeral).exists_ofNat

end Number

/-! ## Writing a tree down -/

namespace Expr

/-- The tree can be written down in front of a punctuation mark, and at the end of a source. -/
def HasSource (e : Expr) : Prop := ∀ rest, Ends rest → ∃ cs, Expression cs e rest

theorem hasSource_ofNat (k : Nat) : (Expr.number (.ofNat k)).HasSource := by
  intro rest hrest
  have hdigits : ∀ c ∈ Nat.toDigits 10 k, c.isDigit = true := fun c hc =>
    Nat.isDigit_of_mem_toDigits (by decide) (by decide) hc
  have hread := expression_digits Nat.toDigits_ne_nil hdigits hrest
  rw [Number.ofDigits, Nat.ofDigitChars_ten_toDigits] at hread
  exact ⟨_, hread⟩

/-- The arguments behind the first one, each with a comma in front of it. -/
theorem exists_source_moreArguments {es : List Expr} (h : ∀ e ∈ es, e.HasSource) {rest : List Char}
    (hrest : Ends rest) : ∃ cs, Ends cs ∧ MoreArguments cs es rest := by
  induction es with
  | nil => exact ⟨rest, hrest, .nil⟩
  | cons e es ih =>
    rw [List.forall_mem_cons] at h
    obtain ⟨cs, hends, hmore⟩ := ih h.2
    obtain ⟨cs', he⟩ := h.1 cs hends
    exact ⟨',' :: cs', by simp [Ends], .cons (.punctuation (.inr (.inr rfl))) he hmore⟩

theorem exists_source_arguments {args : List Expr} (h : ∀ a ∈ args, a.HasSource) {rest : List Char}
    (hrest : Ends rest) : ∃ cs, Arguments cs args rest := by
  cases args with
  | nil => exact ⟨rest, .nil⟩
  | cons e es =>
    rw [List.forall_mem_cons] at h
    obtain ⟨cs, hends, hmore⟩ := exists_source_moreArguments h.2 hrest
    obtain ⟨cs', he⟩ := h.1 cs hends
    exact ⟨cs', .cons he hmore⟩

theorem HasSource.apply {f : Expr} {args : List Expr} (hf : f.HasSource)
    (hargs : ∀ a ∈ args, a.HasSource) : (Expr.apply f args).HasSource := by
  intro rest hrest
  have hends : Ends (')' :: rest) := by simp [Ends]
  obtain ⟨inner, hinner⟩ := exists_source_arguments hargs hends
  obtain ⟨cs, hcs⟩ := hf ('(' :: inner) (by simp [Ends])
  exact ⟨cs, hcs.snoc hinner (.punctuation (.inr (.inl rfl)))⟩

theorem Written.hasSource {e : Expr} (h : e.Written) : e.HasSource := by
  induction e using Expr.induction with
  | number n =>
    obtain ⟨k, rfl⟩ := h.exists_ofNat
    exact hasSource_ofNat k
  | text t =>
    intro rest hrest
    have htext := expression_text (h.text t (by simp [leaves])) rest
    rw [String.ofList_toList] at htext
    exact ⟨_, htext⟩
  | word w =>
    intro rest hrest
    have hword := (h.word w (by simp [leaves])).expression hrest
    rw [String.ofList_toList] at hword
    exact ⟨_, hword⟩
  | apply f args ihf ihargs =>
    exact (ihf h.operator).apply fun a ha => ihargs a ha (h.arg ha)

theorem HasSource.exists_parse {e : Expr} (h : e.HasSource) : ∃ s, parse s = .ok e := by
  obtain ⟨cs, hcs⟩ := h [] (by simp [Ends])
  refine ⟨String.ofList cs, Syntax.parse_of_program ⟨[], ?_, .done (by simp)⟩⟩
  rw [String.toList_ofList]
  exact hcs

end Expr

/-- The parser gives exactly the trees whose words are names, whose texts contain no quote, and whose
numbers are positive zero, positive integers or positive infinity. -/
theorem Syntax.exists_parse_iff (e : Expr) :
    (∃ s, parse s = .ok e) ↔ e.WrittenWith Number.IsNumeral := by
  constructor
  · rintro ⟨s, h⟩
    exact writtenWith_of_parse Number.isNumeral_ofNat h
  · intro h
    have hwritten : e.Written := ⟨h.word, h.text, fun n hn => (h.number n hn).exists_ofNat⟩
    exact hwritten.hasSource.exists_parse

end Egg
