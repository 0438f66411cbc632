import Egg.Proofs.Number.Denotation
import Mathlib

/-!
# What the text of a literal tells

In dumps a literal has a sign, also if it is zero, and an exponent if it is far from one. An `e`
tells the two notations apart. Scientific notation gives the digits and the place of the point
(`Decimal.scientific_inj`); positional notation denotes the value
(`Decimal.HasDigits.textMagnitude_literalDecimal`). So the dump tells the number, with the zeros
told apart, and only the patterns that stand for no value look alike
(`literalDump_eq_literalDump_iff`).
-/

namespace Egg.Number

variable {m n : Number}

/-- The characters of an integer are digits and a sign. -/
theorem isDigit_or_eq_of_mem_toString {z : ℤ} {c : Char} (h : c ∈ (toString z).toList) :
    c.isDigit = true ∨ c = '-' := by
  have hnat : ∀ {k : ℕ}, c ∈ k.repr.toList → c.isDigit = true := by
    intro k hk
    rw [Nat.toList_repr] at hk
    exact Nat.isDigit_of_mem_toDigits (by decide) (by decide) hk
  rw [Int.toString_eq_repr, Int.repr_eq_if] at h
  split_ifs at h
  · exact .inl (hnat h)
  · rw [String.toList_append, List.mem_append] at h
    rcases h with h | h
    · exact .inr (List.mem_singleton.mp h)
    · exact .inl (hnat h)

namespace Decimal

variable {d d' : Decimal}

/-- A decimal with digits, and with nothing else in their place. -/
structure HasDigits (d : Decimal) : Prop where
  ne_nil : d.digits ≠ []
  digit : ∀ c ∈ d.digits, c.isDigit = true

theorem HasDigits.dot_not_mem (h : d.HasDigits) : '.' ∉ d.digits := by
  intro hmem
  cases h.digit '.' hmem

/-! ## Scientific notation -/

/-- The digits, with a point behind the first one if there are more. -/
def mantissa (d : Decimal) : List Char :=
  match d.digits with
  | [] => []
  | [c] => [c]
  | c :: rest => c :: '.' :: rest

theorem scientific_eq (d : Decimal) :
    d.scientific = d.mantissa ++ 'e' :: (toString (d.point - 1)).toList := rfl

theorem HasDigits.exists_mantissa_eq (h : d.HasDigits) :
    ∃ c rest, d.digits = c :: rest ∧ d.mantissa = c :: (if rest = [] then [] else '.' :: rest) := by
  obtain ⟨c, rest, hdigits⟩ := List.exists_cons_of_ne_nil h.ne_nil
  refine ⟨c, rest, hdigits, ?_⟩
  unfold mantissa
  rw [hdigits]
  cases rest with
  | nil => rfl
  | cons c' rest => rfl

theorem HasDigits.isDigit_or_eq_of_mem_mantissa (h : d.HasDigits) {c : Char}
    (hc : c ∈ d.mantissa) : c.isDigit = true ∨ c = '.' := by
  obtain ⟨x, rest, hdigits, hmantissa⟩ := h.exists_mantissa_eq
  have hdigit : c ∈ x :: rest → c.isDigit = true ∨ c = '.' :=
    fun hmem => .inl (h.digit c (hdigits ▸ hmem))
  rw [hmantissa] at hc
  rcases List.mem_cons.mp hc with rfl | hc
  · exact hdigit List.mem_cons_self
  · split_ifs at hc
    · cases hc
    · rcases List.mem_cons.mp hc with rfl | hc
      · exact .inr rfl
      · exact hdigit (List.mem_cons_of_mem x hc)

/-- The digits are what is left when the point is taken away. -/
theorem HasDigits.filter_mantissa (h : d.HasDigits) :
    d.mantissa.filter (· != '.') = d.digits := by
  have hkeep : d.digits.filter (· != '.') = d.digits := by
    rw [List.filter_eq_self]
    intro c hc
    rw [bne_iff_ne]
    rintro rfl
    exact h.dot_not_mem hc
  obtain ⟨c, rest, hdigits, hmantissa⟩ := h.exists_mantissa_eq
  rw [← hkeep, hmantissa, hdigits]
  split_ifs with hrest
  · rw [hrest]
  · rw [List.filter_cons, List.filter_cons, List.filter_cons]
    rfl

/-- Scientific notation gives back the digits and the place of the point. -/
theorem scientific_inj (h : d.HasDigits) (h' : d'.HasDigits) (heq : d.scientific = d'.scientific) :
    d = d' := by
  have hclass : ∀ {x : Decimal}, x.HasDigits → ∀ c ∈ x.mantissa, (c != 'e') = true := by
    intro x hx c hc
    rw [bne_iff_ne]
    rintro rfl
    rcases hx.isDigit_or_eq_of_mem_mantissa hc with hdigit | hdot
    · cases hdigit
    · cases hdot
  rw [scientific_eq, scientific_eq] at heq
  obtain ⟨hmantissa, hexponent⟩ :=
    Syntax.append_inj_of_class (hclass h) (hclass h') (by simp) (by simp) heq
  have hdigits : d.digits = d'.digits := by
    rw [← h.filter_mantissa, ← h'.filter_mantissa, hmantissa]
  have hpoint : d.point - 1 = d'.point - 1 := by
    have htext := String.toList_inj.mp (List.cons.inj hexponent).2
    rw [Int.toString_eq_repr, Int.toString_eq_repr] at htext
    exact Int.repr_inj.mp htext
  cases d
  cases d'
  congr
  exact sub_left_injective hpoint

/-! ## The notation of literals -/

/-- The decimal is written with an exponent. -/
def IsFar (d : Decimal) : Prop := d.point ≤ -4 ∨ 17 ≤ d.point

theorem literalDecimal_of_isFar (h : d.IsFar) : literalDecimal d = d.scientific := by
  rw [literalDecimal, if_pos]
  simpa [IsFar] using h

theorem literalDecimal_of_not_isFar (h : ¬ d.IsFar) :
    literalDecimal d = d.positional ++ if d.isIntegral then ['.', '0'] else [] := by
  rw [literalDecimal, if_neg]
  · split_ifs <;> simp
  · simpa [IsFar] using h

/-- A literal begins with the decimal itself, without a sign; an exponent or a fraction may
follow. -/
theorem HasDigits.exists_literalDecimal_eq (h : d.HasDigits) :
    ∃ c cs rest, literalDecimal d = c :: cs ++ rest ∧
      (∀ x ∈ c :: cs, x.isDigit = true ∨ x = '.') ∧
      (rest = [] ∨ rest = ['.', '0'] ∨ rest = 'e' :: (toString (d.point - 1)).toList) := by
  by_cases hfar : d.IsFar
  · obtain ⟨c, cs, -, hmantissa⟩ := h.exists_mantissa_eq
    refine ⟨c, _, _, ?_, fun x hx => h.isDigit_or_eq_of_mem_mantissa (hmantissa ▸ hx),
      .inr (.inr rfl)⟩
    rw [literalDecimal_of_isFar hfar, scientific_eq, hmantissa]
  · obtain ⟨c, cs, hpositional⟩ := List.exists_cons_of_ne_nil d.positional_ne_nil
    refine ⟨c, cs, if d.isIntegral then ['.', '0'] else [], ?_,
      fun x hx => isDigit_or_eq_of_mem_positional h.digit (hpositional ▸ hx), ?_⟩
    · rw [literalDecimal_of_not_isFar hfar, hpositional]
    · split_ifs
      · exact .inr (.inl rfl)
      · exact .inl rfl

/-- A literal does not begin like a sign or a word. -/
theorem HasDigits.exists_literalDecimal_eq_cons (h : d.HasDigits) :
    ∃ c cs, literalDecimal d = c :: cs ∧ c ≠ '-' ∧ c ≠ 'N' ∧ c ≠ 'i' := by
  obtain ⟨c, cs, rest, heq, hmain, -⟩ := h.exists_literalDecimal_eq
  have hne : ∀ x : Char, x.isDigit = false → x ≠ '.' → c ≠ x := by
    rintro x hdigit hdot rfl
    rcases hmain c List.mem_cons_self with hc | hc
    · rw [hc] at hdigit
      cases hdigit
    · exact hdot hc
  exact ⟨c, cs ++ rest, heq, hne '-' rfl (by decide), hne 'N' rfl (by decide),
    hne 'i' rfl (by decide)⟩

theorem HasDigits.mem_literalDecimal (h : d.HasDigits) {c : Char} (hc : c ∈ literalDecimal d) :
    c.isAlphanum = true ∨ c = '.' ∨ c = '-' := by
  have hdigit : c.isDigit = true → c.isAlphanum = true := by
    intro hc
    rw [Char.isAlphanum, hc, Bool.or_true]
  obtain ⟨x, xs, rest, heq, hmain, hrest⟩ := h.exists_literalDecimal_eq
  rw [heq, List.mem_append] at hc
  rcases hc with hc | hc
  · rcases hmain c hc with hc | hc
    · exact .inl (hdigit hc)
    · exact .inr (.inl hc)
  · rcases hrest with rfl | rfl | rfl
    · cases hc
    · rcases List.mem_cons.mp hc with rfl | hc
      · exact .inr (.inl rfl)
      · rw [List.mem_singleton.mp hc]
        exact .inl rfl
    · rcases List.mem_cons.mp hc with rfl | hc
      · exact .inl rfl
      · rcases isDigit_or_eq_of_mem_toString hc with hc | hc
        · exact .inl (hdigit hc)
        · exact .inr (.inr hc)

theorem HasDigits.mem_literalDecimal_iff_isFar (h : d.HasDigits) :
    'e' ∈ literalDecimal d ↔ d.IsFar := by
  constructor
  · intro hmem
    by_contra hfar
    rw [literalDecimal_of_not_isFar hfar, List.mem_append] at hmem
    rcases hmem with hmem | hmem
    · rcases isDigit_or_eq_of_mem_positional h.digit hmem with hdigit | hdot
      · cases hdigit
      · cases hdot
    · split_ifs at hmem
      · simp at hmem
      · cases hmem
  · intro hfar
    rw [literalDecimal_of_isFar hfar, scientific_eq]
    simp

/-- An integer has no point in positional notation. -/
theorem HasDigits.dot_not_mem_positional (h : d.HasDigits) (hintegral : d.isIntegral = true) :
    '.' ∉ d.positional := by
  have hle : (d.digits.length : ℤ) ≤ d.point := by simpa [isIntegral] using hintegral
  have hpos := List.length_pos_iff.mpr h.ne_nil
  obtain ⟨p, hp⟩ := Int.eq_ofNat_of_zero_le (by omega : 0 ≤ d.point)
  have hpositional : d.positional = d.digits ++ List.replicate (p - d.digits.length) '0' := by
    unfold positional
    rw [hp]
    change (if p = 0 then _ else if d.digits.length ≤ p then _ else _) = _
    rw [if_neg (by omega), if_pos (by omega)]
  rw [hpositional, List.mem_append, not_or]
  exact ⟨h.dot_not_mem, by simp⟩

/-- Without an exponent, a literal denotes the decimal. -/
theorem HasDigits.textMagnitude_literalDecimal (h : d.HasDigits) (hfar : ¬ d.IsFar) :
    textMagnitude (literalDecimal d) = d.value := by
  rw [literalDecimal_of_not_isFar hfar]
  split_ifs with hintegral
  · -- The fraction that is put behind an integer multiplies and divides by ten.
    have hdot := h.dot_not_mem_positional hintegral
    have hwhole := textMagnitude_positional h.dot_not_mem
    rw [textMagnitude_of_not_mem hdot] at hwhole
    rw [textMagnitude_append hdot (by simp), ← hwhole]
    change ((Nat.ofDigitChars 10 (d.positional ++ ['0']) 0 : ℕ) : ℚ) / 10 ^ 1 = _
    rw [Nat.ofDigitChars_append]
    change ((10 * Nat.ofDigitChars 10 d.positional 0 + 0 : ℕ) : ℚ) / 10 ^ 1 = _
    push_cast
    ring
  · rw [List.append_nil]
    exact textMagnitude_positional h.dot_not_mem

theorem literalDecimal_inj (h : d.HasDigits) (h' : d'.HasDigits)
    (heq : literalDecimal d = literalDecimal d') : d.value = d'.value := by
  have hfar : d.IsFar ↔ d'.IsFar := by
    rw [← h.mem_literalDecimal_iff_isFar, heq, h'.mem_literalDecimal_iff_isFar]
  by_cases hd : d.IsFar
  · rw [literalDecimal_of_isFar hd, literalDecimal_of_isFar (hfar.mp hd)] at heq
    rw [scientific_inj h h' heq]
  · rw [← h.textMagnitude_literalDecimal hd, heq,
      h'.textMagnitude_literalDecimal (fun hd' => hd (hfar.mpr hd'))]

end Decimal

/-! ## The dump of a literal -/

/-- The decimal that is written for the magnitude of a finite number. -/
def literal (n : Number) : Decimal := if n.isZero then ⟨['0'], 1⟩ else n.shortest

theorem hasDigits_literal (n : Number) : n.literal.HasDigits := by
  unfold literal
  split_ifs with hzero
  · exact ⟨by simp, by simp⟩
  · refine ⟨?_, fun c => isDigit_of_mem_shortest⟩
    intro hnil
    have hpos := value_shortest_pos (Bool.eq_false_iff.mpr hzero)
    rw [Decimal.value, hnil, Nat.ofDigitChars_nil, Nat.cast_zero, zero_mul] at hpos
    exact lt_irrefl _ hpos

theorem value_literal_of_isZero (h : n.isZero = true) : n.literal.value = 0 := by
  rw [literal, if_pos h, Decimal.value]
  change ((0 : ℕ) : ℚ) * 10 ^ ((1 : ℤ) - 1) = 0
  simp

theorem literal_of_not_isZero (h : n.isZero = false) : n.literal = n.shortest := by
  rw [literal, h]
  rfl

theorem rank_eq_of_value_literal (h : m.literal.value = n.literal.value) :
    m.rank.toNat = n.rank.toNat := by
  cases hm : m.isZero with
  | true =>
    cases hn : n.isZero with
    | true => rw [isZero_eq_true.mp hm, isZero_eq_true.mp hn]
    | false =>
      have hpos := value_shortest_pos hn
      rw [value_literal_of_isZero hm, literal_of_not_isZero hn] at h
      linarith
  | false =>
    rw [literal_of_not_isZero hm] at h
    cases hn : n.isZero with
    | true =>
      have hpos := value_shortest_pos hm
      rw [value_literal_of_isZero hn] at h
      linarith
    | false =>
      rw [literal_of_not_isZero hn] at h
      exact rank_eq_of_value_shortest hm hn h

/-- The dump of a literal without its sign. -/
def literalMagnitude (n : Number) : List Char :=
  if n.isInfinite then "inf".toList else literalDecimal n.literal

theorem literalDump_of_isNaN (h : n.isNaN = true) : n.literalDump = "NaN".toList := by
  rw [literalDump, if_pos h]

theorem literalDump_of_not_isNaN (h : n.isNaN = false) :
    n.literalDump = if n.isNegative then '-' :: n.literalMagnitude else n.literalMagnitude := by
  rw [literalDump, literalMagnitude, literal, infinityDump, signed, h]
  simp only [Bool.false_eq_true, if_false]
  split_ifs <;> rfl

theorem exists_literalMagnitude_eq (n : Number) :
    ∃ c cs, n.literalMagnitude = c :: cs ∧ c ≠ '-' ∧ c ≠ 'N' := by
  unfold literalMagnitude
  split_ifs
  · exact ⟨'i', "nf".toList, rfl, by decide, by decide⟩
  · obtain ⟨c, cs, heq, hminus, hnan, -⟩ := n.hasDigits_literal.exists_literalDecimal_eq_cons
    exact ⟨c, cs, heq, hminus, hnan⟩

theorem rank_eq_of_literalMagnitude (h : m.literalMagnitude = n.literalMagnitude) :
    m.rank.toNat = n.rank.toNat := by
  have hword : ∀ {k : Number}, literalDecimal k.literal ≠ "inf".toList := by
    intro k hk
    obtain ⟨c, cs, heq, -, -, hc⟩ := k.hasDigits_literal.exists_literalDecimal_eq_cons
    exact hc (List.cons.inj (heq.symm.trans hk)).1
  unfold literalMagnitude at h
  split_ifs at h with hm hn hn
  · rw [isInfinite_eq_true.mp hm, isInfinite_eq_true.mp hn]
  · exact absurd h.symm hword
  · exact absurd h hword
  · exact rank_eq_of_value_literal
      (Decimal.literalDecimal_inj m.hasDigits_literal n.hasDigits_literal h)

/-- The sign can be told from the rest. -/
theorem eq_of_literalDump (hm : m.isNaN = false) (hn : n.isNaN = false)
    (h : m.literalDump = n.literalDump) : m = n := by
  have hminus : ∀ {k : Number} {cs : List Char}, k.literalMagnitude ≠ '-' :: cs := by
    intro k cs hk
    obtain ⟨c, cs', heq, hc, -⟩ := k.exists_literalMagnitude_eq
    exact hc (List.cons.inj (heq.symm.trans hk)).1
  rw [literalDump_of_not_isNaN hm, literalDump_of_not_isNaN hn] at h
  cases hmsign : m.isNegative with
  | true =>
    cases hnsign : n.isNegative with
    | true =>
      rw [if_pos hmsign, if_pos hnsign] at h
      have hrank := rank_eq_of_literalMagnitude (List.cons.inj h).2
      exact eq_of_rank (hmsign.trans hnsign.symm) hrank
    | false =>
      rw [hmsign, hnsign] at h
      exact absurd h.symm hminus
  | false =>
    cases hnsign : n.isNegative with
    | true =>
      rw [hmsign, hnsign] at h
      exact absurd h hminus
    | false =>
      rw [hmsign, hnsign] at h
      exact eq_of_rank (hmsign.trans hnsign.symm) (rank_eq_of_literalMagnitude h)

theorem literalDump_ne_of_not_isNaN (h : n.isNaN = false) : n.literalDump ≠ "NaN".toList := by
  intro heq
  obtain ⟨c, cs, hmagnitude, -, hc⟩ := n.exists_literalMagnitude_eq
  rw [literalDump_of_not_isNaN h, hmagnitude] at heq
  split_ifs at heq
  · cases (List.cons.inj heq).1
  · exact hc (List.cons.inj heq).1

/-- The same number, except that the patterns that stand for no value are not told apart. -/
def Identical (m n : Number) : Prop := m = n ∨ m.isNaN = true ∧ n.isNaN = true

/-- The dump of a literal tells the number and the sign of zero. -/
theorem literalDump_eq_literalDump_iff : m.literalDump = n.literalDump ↔ m.Identical n := by
  constructor
  · intro h
    cases hm : m.isNaN with
    | true =>
      cases hn : n.isNaN with
      | true => exact .inr ⟨hm, hn⟩
      | false =>
        rw [literalDump_of_isNaN hm] at h
        exact absurd h.symm (literalDump_ne_of_not_isNaN hn)
    | false =>
      cases hn : n.isNaN with
      | true =>
        rw [literalDump_of_isNaN hn] at h
        exact absurd h (literalDump_ne_of_not_isNaN hm)
      | false => exact .inl (eq_of_literalDump hm hn h)
  · rintro (rfl | ⟨hm, hn⟩)
    · rfl
    · rw [literalDump_of_isNaN hm, literalDump_of_isNaN hn]

theorem mem_literalDump {c : Char} (hc : c ∈ n.literalDump) :
    c.isAlphanum = true ∨ c = '.' ∨ c = '-' := by
  have hmagnitude : c ∈ n.literalMagnitude → c.isAlphanum = true ∨ c = '.' ∨ c = '-' := by
    intro hmem
    unfold literalMagnitude at hmem
    split_ifs at hmem
    · have hall : "inf".toList.all Char.isAlphanum = true := by decide
      exact .inl (List.all_eq_true.mp hall c hmem)
    · exact n.hasDigits_literal.mem_literalDecimal hmem
  cases hnan : n.isNaN with
  | true =>
    rw [literalDump_of_isNaN hnan] at hc
    have hall : "NaN".toList.all Char.isAlphanum = true := by decide
    exact .inl (List.all_eq_true.mp hall c hc)
  | false =>
    rw [literalDump_of_not_isNaN hnan] at hc
    split_ifs at hc
    · rcases List.mem_cons.mp hc with rfl | hc
      · exact .inr (.inr rfl)
      · exact hmagnitude hc
    · exact hmagnitude hc

/-- What may follow the dump of a literal does not occur in it. -/
theorem not_mark_of_mem_literalDump {c : Char} (hc : c ∈ n.literalDump) :
    c ≠ ',' ∧ c ≠ ')' ∧ c ≠ '\n' := by
  have hne : ∀ x : Char, x.isAlphanum = false → x ≠ '.' → x ≠ '-' → c ≠ x := by
    rintro x halphanum hdot hminus rfl
    rcases mem_literalDump hc with h | h | h
    · rw [h] at halphanum
      cases halphanum
    · exact hdot h
    · exact hminus h
  exact ⟨hne ',' rfl (by decide) (by decide), hne ')' rfl (by decide) (by decide),
    hne '\n' rfl (by decide) (by decide)⟩

end Egg.Number
