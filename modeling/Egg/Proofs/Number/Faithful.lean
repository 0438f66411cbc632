import Egg.Proofs.Number.Literal
import Egg.Proofs.Number.Shortness
import Egg.Proofs.Syntax.RoundTrip
import Mathlib

/-!
# Faithful texts

The text that programs see of a finite number is a decimal without an exponent. It is rounded to the
number, no decimal with fewer significant digits is, and an integer is written with digits only
(`IsFaithful`).
-/

namespace Egg.Number

variable {m n : Number}

/-! ## Plain notation -/

/-- Digits, and at least one. -/
def IsDigits (cs : List Char) : Prop := cs ≠ [] ∧ ∀ c ∈ cs, c.isDigit = true

/-- Digits, with a point between them or without one. -/
def IsPlain (cs : List Char) : Prop :=
  IsDigits cs ∨ ∃ whole places, cs = whole ++ '.' :: places ∧ IsDigits whole ∧ IsDigits places

/-- A text of the form `p`, with a minus sign before it or without one. -/
def WithSign (p : List Char → Prop) (text : List Char) : Prop :=
  p text ∨ ∃ cs, text = '-' :: cs ∧ p cs

theorem withSign_signed {p : List Char → Prop} {f : Decimal → List Char} (h : p (f n.shortest)) :
    WithSign p (n.signed f) := by
  rw [signed]
  split_ifs
  · exact .inr ⟨_, rfl, h⟩
  · exact .inl h

theorem isDigits_zero : IsDigits ['0'] := ⟨by simp, by simp⟩

theorem isDigit_of_mem_zeros {k : Nat} {c : Char} (hc : c ∈ List.replicate k '0') :
    c.isDigit = true := by
  rw [List.eq_of_mem_replicate hc]
  rfl

namespace Decimal

variable {d : Decimal}

theorem HasDigits.isPlain_positional (h : d.HasDigits) : IsPlain d.positional := by
  unfold positional
  split
  · next p _ =>
    split_ifs with hzero hle
    · exact .inr ⟨['0'], _, rfl, isDigits_zero, h.ne_nil, h.digit⟩
    · exact .inl ⟨by simp [h.ne_nil],
        List.forall_mem_append.mpr ⟨h.digit, fun _ => isDigit_of_mem_zeros⟩⟩
    · refine .inr ⟨_, _, rfl, ⟨?_, fun c hc => h.digit c (List.mem_of_mem_take hc)⟩,
        ⟨?_, fun c hc => h.digit c (List.mem_of_mem_drop hc)⟩⟩
      · simp [List.take_eq_nil_iff, hzero, h.ne_nil]
      · simpa using hle
  · exact .inr ⟨['0'], _, rfl, isDigits_zero, by simp,
      List.forall_mem_append.mpr ⟨fun _ => isDigit_of_mem_zeros, h.digit⟩⟩

end Decimal

/-! ## Significant digits -/

/-- The digits of a text, without the zeros before and after all others. -/
def significantDigits (text : List Char) : List Char :=
  (((text.filter Char.isDigit).dropWhile (· == '0')).reverse.dropWhile (· == '0')).reverse

/-- Zeros around the digits do not make them more. -/
theorem length_dropWhile_zeros_le (j k : Nat) (ds : List Char) :
    (((List.replicate j '0' ++ ds ++ List.replicate k '0').dropWhile (· == '0')).reverse.dropWhile
      (· == '0')).reverse.length ≤ ds.length := by
  have hzeros : ∀ k : Nat, ∀ c ∈ List.replicate k '0', (c == '0') = true := by
    intro k c hc
    rw [List.eq_of_mem_replicate hc]
    rfl
  rw [List.append_assoc, List.dropWhile_append_of_pos (hzeros j), List.dropWhile_append]
  split_ifs
  · have hnil : (List.replicate k '0').dropWhile (· == '0') = [] := by
      rw [List.dropWhile_eq_nil_iff]
      exact hzeros k
    rw [hnil]
    exact Nat.zero_le _
  · rw [dropWhile_append_zeros, List.length_reverse]
    calc
      ((ds.dropWhile (· == '0')).reverse.dropWhile (· == '0')).length
          ≤ (ds.dropWhile (· == '0')).reverse.length := (List.dropWhile_sublist _).length_le
      _ = (ds.dropWhile (· == '0')).length := List.length_reverse
      _ ≤ ds.length := (List.dropWhile_sublist _).length_le

/-- The digits in positional notation are those of the decimal, with zeros around them. -/
theorem Decimal.HasDigits.filter_positional {d : Decimal} (h : d.HasDigits) :
    ∃ j k, d.positional.filter Char.isDigit =
      List.replicate j '0' ++ d.digits ++ List.replicate k '0' := by
  have hdigits : d.digits.filter Char.isDigit = d.digits := List.filter_eq_self.mpr h.digit
  unfold positional
  split
  · next p _ =>
    split_ifs
    · refine ⟨1, 0, ?_⟩
      simp [hdigits]
    · refine ⟨0, p - d.digits.length, ?_⟩
      simp [hdigits]
    · refine ⟨0, 0, ?_⟩
      have hsplit : (d.digits.take p ++ d.digits.drop p).filter Char.isDigit = d.digits := by
        rw [List.take_append_drop, hdigits]
      rw [List.filter_append] at hsplit
      simpa [List.filter_cons] using hsplit
  · next p _ =>
    refine ⟨p + 2, 0, ?_⟩
    simp [hdigits, List.replicate_succ]

theorem Decimal.HasDigits.length_significantDigits_le {d : Decimal} (h : d.HasDigits) :
    (significantDigits d.positional).length ≤ d.digits.length := by
  obtain ⟨j, k, hfilter⟩ := h.filter_positional
  rw [significantDigits, hfilter]
  exact length_dropWhile_zeros_le j k d.digits

/-! ## The text of a finite number -/

theorem hasDigits_shortest (hzero : n.isZero = false) : n.shortest.HasDigits :=
  literal_of_not_isZero hzero ▸ n.hasDigits_literal

theorem isPlain_display (h : n.IsFinite) : WithSign IsPlain n.display := by
  cases hzero : n.isZero with
  | true =>
    rw [display_of_isZero hzero]
    exact .inl (.inl isDigits_zero)
  | false =>
    rw [display_of_isFinite h hzero]
    exact withSign_signed (hasDigits_shortest hzero).isPlain_positional

/-- The text of an integer is digits after an optional sign. Its shortest decimal is an integer too. -/
theorem isDigits_display (h : n.IsFinite) (hintegral : ∃ z : ℤ, n.value = z) :
    WithSign IsDigits n.display := by
  cases hzero : n.isZero with
  | true =>
    rw [display_of_isZero hzero]
    exact .inl isDigits_zero
  | false =>
    obtain ⟨z, hz⟩ := hintegral
    have habs : |n.value| = (z.natAbs : ℕ) := by rw [hz, Nat.cast_natAbs, Int.cast_abs]
    have hk := abs_value_eq_natCast_iff.mp habs
    obtain ⟨a, ha⟩ := exists_mul_eq_coarsest hk (pos_of_significand_eq hzero hk)
    have hapos : 0 < a := by
      have hmul := Nat.mul_pos (coarsest_pos hzero) (Nat.pow_pos (n := (n.interval.2 - 17).toNat)
        (by decide : 0 < 10))
      rw [← ha] at hmul
      exact Nat.pos_of_mul_pos_right hmul
    rw [display_of_isFinite h hzero]
    refine withSign_signed ?_
    rw [positional_shortest hapos ha]
    exact ⟨Nat.toDigits_ne_nil, fun c hc => Nat.isDigit_of_mem_toDigits (by decide) (by decide) hc⟩

theorem length_significantDigits_display (h : n.IsFinite) (hzero : n.isZero = false) :
    (significantDigits n.display).length ≤ n.shortest.digits.length := by
  have hsign : significantDigits n.display = significantDigits n.shortest.positional := by
    rw [display_of_isFinite h hzero, signed]
    split_ifs <;> rfl
  rw [hsign]
  exact (hasDigits_shortest hzero).length_significantDigits_le

/-! ## Rounding the text -/

/-- The number, except that zero is positive. -/
def withoutZeroSign (n : Number) : Number := if n.isZero then ⟨0⟩ else n

theorem roundsTo_zero : RoundsTo 0 ⟨0⟩ where
  nearest := by
    refine ⟨isFinite_of_isZero rfl, fun m _ => ?_, fun _ _ _ _ => rfl⟩
    rw [value_eq_zero rfl, sub_zero, abs_zero]
    exact abs_nonneg _
  inRange := by
    rw [abs_zero, sub_pos]
    exact pow_lt_pow_right₀ one_lt_two (by decide)
  sign := by
    constructor
    · intro h
      cases h
    · intro h
      exact absurd h (lt_irrefl 0)

/-- The text is rounded to the number, and to no other. -/
theorem roundsTo_textValue_display_iff (h : n.IsFinite) :
    RoundsTo (textValue n.display) m ↔ m = n.withoutZeroSign := by
  have hrounds : RoundsTo (textValue n.display) n.withoutZeroSign := by
    cases hzero : n.isZero with
    | true =>
      rw [textValue_display_of_isZero hzero, withoutZeroSign, if_pos hzero]
      exact roundsTo_zero
    | false =>
      obtain ⟨a, b, hb, hcaptures, hvalue⟩ := exists_captures_shortest hzero
      rw [textValue_display h hzero, hvalue, withoutZeroSign, hzero, if_neg Bool.false_ne_true]
      exact hcaptures.roundsTo h hzero hb
  constructor
  · intro hm
    exact hm.eq hrounds
  · rintro rfl
    exact hrounds

/-- No decimal with fewer significant digits is rounded to the number. -/
theorem RoundsTo.length_significantDigits_display_le {d e : ℤ} (h : RoundsTo (d * 10 ^ e) n) :
    (significantDigits n.display).length ≤ (Nat.digits 10 d.natAbs).length := by
  cases hzero : n.isZero with
  | true =>
    rw [display_of_isZero hzero]
    exact Nat.zero_le _
  | false =>
    have habs : |(d * 10 ^ e : ℚ)| = d.natAbs * 10 ^ e := by
      rw [abs_mul, abs_of_pos (by positivity : (0 : ℚ) < 10 ^ e), Nat.cast_natAbs, Int.cast_abs]
    have hlt : d.natAbs < 10 ^ (Nat.digits 10 d.natAbs).length :=
      Nat.lt_base_pow_length_digits (by decide)
    exact (length_significantDigits_display h.nearest.finite hzero).trans
      (h.length_shortest_le hzero habs hlt)

/-! ## Faithfulness -/

/-- What the text of a finite number has to be. -/
structure IsFaithful (text : List Char) (n : Number) : Prop where
  /-- A decimal without an exponent, -/
  plain : WithSign IsPlain text
  /-- which is rounded to the number and to no other, but zero has no sign in it. -/
  rounds : ∀ m, RoundsTo (textValue text) m ↔ m = n.withoutZeroSign
  /-- No decimal of fewer significant digits is rounded to the number. -/
  shortest : ∀ d e : ℤ, RoundsTo (d * 10 ^ e) n →
    (significantDigits text).length ≤ (Nat.digits 10 d.natAbs).length
  /-- An integer has no fraction. -/
  integer : (∃ z : ℤ, n.value = z) → WithSign IsDigits text

/-- The text of a natural number is a numeral for it. -/
theorem IsNatural.parse_display (h : n.IsNatural) :
    Syntax.parse (String.ofList n.display) = .ok (.number n.withoutZeroSign) := by
  have hreread : (Expr.number n).reread = .number n.withoutZeroSign := by
    rw [Expr.reread, h.finite.2, if_neg Bool.false_ne_true, withoutZeroSign]
    split_ifs <;> rfl
  rw [← hreread]
  refine Syntax.parse_of_program ⟨[], ?_, .done (by simp)⟩
  rw [String.toList_ofList, ← List.append_nil n.display]
  exact IsReadable.expression (.inl h) (by simp [Syntax.Grammar.Ends])

/-- The text of a finite number is faithful, that of a natural number is read as the number literal, and
what is not equal has different texts. -/
theorem display_faithful :
    (∀ n : Number, n.IsFinite → IsFaithful n.display n) ∧
    (∀ n : Number, n.IsNatural →
      Syntax.parse (String.ofList n.display) = .ok (.number n.withoutZeroSign)) ∧
    ∀ m n : Number, m.isNaN = false → n.isNaN = false → m.display = n.display →
      (m == n) = true := by
  refine ⟨fun n hfinite => ?_, fun n hnatural => hnatural.parse_display, fun m n hm _ heq => ?_⟩
  · exact {
      plain := isPlain_display hfinite
      rounds := fun m => roundsTo_textValue_display_iff hfinite
      shortest := fun d e h => h.length_significantDigits_display_le
      integer := isDigits_display hfinite }
  · exact beq_eq_true_iff.mpr ⟨hm, display_eq_display_iff.mp heq⟩

/-- The least positive number, the integer `2 ^ 53`, and the two zeros. -/
theorem display_faithful_extremes :
    (IsFinite ⟨1⟩ ∧ IsFaithful (display ⟨1⟩) ⟨1⟩) ∧
    (IsNatural ⟨0x4340000000000000⟩ ∧ Syntax.parse (String.ofList (display ⟨0x4340000000000000⟩)) =
      .ok (.number ⟨0x4340000000000000⟩)) ∧
    display ⟨0⟩ = display ⟨signBit⟩ ∧ ((⟨0⟩ : Number) == ⟨signBit⟩) = true := by
  have hfinite : IsFinite ⟨1⟩ := isFinite_iff.mpr (by decide)
  have hnatural : IsNatural ⟨0x4340000000000000⟩ :=
    isNatural_of_value_eq (k := 2 ^ 53) (isFinite_iff.mpr (by decide))
      ((value_eq_natCast_iff rfl).mpr (by decide))
  have hzeros : display ⟨0⟩ = display ⟨signBit⟩ := by
    rw [display_of_isZero rfl, display_of_isZero rfl]
  exact ⟨⟨hfinite, display_faithful.1 _ hfinite⟩, ⟨hnatural, display_faithful.2.1 _ hnatural⟩,
    hzeros, display_faithful.2.2 _ _ rfl rfl hzeros⟩

end Egg.Number
