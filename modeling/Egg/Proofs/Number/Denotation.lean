import Egg.Proofs.Number.Order
import Egg.Proofs.Number.Printing
import Egg.Proofs.Syntax.Scanning
import Mathlib

/-!
# What the text of a number denotes

The text of a finite number is a decimal, with or without a point, and denotes a rational number
(`textValue`). For all finite numbers but the zeros it is a decimal that the number captures, and no
other number captures it. So the text tells the number, up to the sign of zero
(`display_eq_display_iff`).
-/

namespace Egg.Number

variable {m n : Number}

/-! ## Decimal texts -/

/-- The rational number that a decimal without a sign denotes. -/
def textMagnitude (cs : List Char) : ℚ :=
  let whole := cs.takeWhile (· != '.')
  let places := (cs.dropWhile (· != '.')).drop 1
  Nat.ofDigitChars 10 (whole ++ places) 0 / 10 ^ places.length

/-- The rational number that a decimal denotes. -/
def textValue : List Char → ℚ
  | '-' :: cs => -textMagnitude cs
  | cs => textMagnitude cs

theorem textMagnitude_append {whole rest : List Char} (h : '.' ∉ whole)
    (hrest : ∀ c ∈ rest.head?, c = '.') : textMagnitude (whole ++ rest) =
      Nat.ofDigitChars 10 (whole ++ rest.drop 1) 0 / 10 ^ (rest.drop 1).length := by
  have hwhole : ∀ c ∈ whole, (c != '.') = true := by
    intro c hc
    rw [bne_iff_ne]
    rintro rfl
    exact h hc
  have hstop : ∀ c ∈ rest.head?, (c != '.') = false := by
    intro c hc
    rw [hrest c hc]
    rfl
  obtain ⟨htake, hdrop⟩ := Syntax.takeWhile_eq_and_dropWhile_eq hwhole hstop
  simp only [textMagnitude, htake, hdrop]

theorem textMagnitude_of_not_mem {cs : List Char} (h : '.' ∉ cs) :
    textMagnitude cs = Nat.ofDigitChars 10 cs 0 := by
  have hsplit : textMagnitude (cs ++ []) = _ := textMagnitude_append h (by simp)
  simpa using hsplit

theorem textValue_of_not_mem {cs : List Char} (h : '-' ∉ cs) : textValue cs = textMagnitude cs := by
  unfold textValue
  split
  · exact absurd List.mem_cons_self h
  · rfl

namespace Decimal

/-- The rational number that a decimal is. -/
def value (d : Decimal) : ℚ :=
  Nat.ofDigitChars 10 d.digits 0 * 10 ^ (d.point - d.digits.length)

theorem mem_positional {d : Decimal} {c : Char} (hc : c ∈ d.positional) :
    c = '0' ∨ c = '.' ∨ c ∈ d.digits := by
  unfold positional at hc
  split at hc
  · next p _ =>
    split_ifs at hc
    · simpa using hc
    · rcases List.mem_append.mp hc with hc | hc
      · exact .inr (.inr hc)
      · exact .inl (List.eq_of_mem_replicate hc)
    · rcases List.mem_append.mp hc with hc | hc
      · exact .inr (.inr (List.mem_of_mem_take hc))
      · rcases List.mem_cons.mp hc with rfl | hc
        · exact .inr (.inl rfl)
        · exact .inr (.inr (List.mem_of_mem_drop hc))
  · next p _ =>
    simp only [List.mem_cons, List.mem_append] at hc
    rcases hc with rfl | rfl | hc | hc
    · exact .inl rfl
    · exact .inr (.inl rfl)
    · exact .inl (List.eq_of_mem_replicate hc)
    · exact .inr (.inr hc)

theorem isDigit_or_eq_of_mem_positional {d : Decimal} {c : Char}
    (h : ∀ x ∈ d.digits, x.isDigit = true) (hc : c ∈ d.positional) :
    c.isDigit = true ∨ c = '.' := by
  rcases mem_positional hc with rfl | rfl | hc
  · exact .inl rfl
  · exact .inr rfl
  · exact .inl (h c hc)

/-- Zeros before the digits do not count. -/
theorem ofDigitChars_zeros_append (k : Nat) (cs : List Char) :
    Nat.ofDigitChars 10 (List.replicate k '0' ++ cs) 0 = Nat.ofDigitChars 10 cs 0 := by
  rw [Nat.ofDigitChars_append, Nat.ofDigitChars_replicate_zero, Nat.mul_zero]

/-- A text with the digits of a decimal denotes it, if the point has been put at the right place. -/
theorem value_eq_of_places {d : Decimal} {k : Nat} {x : ℕ} (hx : x = Nat.ofDigitChars 10 d.digits 0)
    (hk : d.point + k = d.digits.length) : (x : ℚ) / 10 ^ k = d.value := by
  have hpoint : d.point - d.digits.length = -(k : ℤ) := by omega
  rw [value, hpoint, hx, zpow_neg, zpow_natCast, div_eq_mul_inv]

/-- Positional notation denotes the decimal. -/
theorem textMagnitude_positional {d : Decimal} (h : '.' ∉ d.digits) :
    textMagnitude d.positional = d.value := by
  obtain ⟨ds, point⟩ := d
  cases point with
  | ofNat p =>
    change textMagnitude (if p = 0 then '0' :: '.' :: ds else if ds.length ≤ p then
      ds ++ List.replicate (p - ds.length) '0' else ds.take p ++ '.' :: ds.drop p) = _
    split_ifs with hzero hle
    · rw [← List.singleton_append, textMagnitude_append (by decide) (by simp)]
      exact value_eq_of_places (ofDigitChars_zeros_append 1 ds) (by simp [hzero])
    · -- All digits stand before the point, and so do the zeros that are needed to reach it.
      have hdot : '.' ∉ ds ++ List.replicate (p - ds.length) '0' := by
        simp only [List.mem_append, List.mem_replicate, not_or]
        exact ⟨h, by simp⟩
      have hexp : ((p : ℤ) - ds.length) = ((p - ds.length : ℕ) : ℤ) := by omega
      rw [textMagnitude_of_not_mem hdot, Nat.ofDigitChars_append, Nat.ofDigitChars_replicate_zero]
      change _ = (Nat.ofDigitChars 10 ds 0 : ℚ) * 10 ^ ((p : ℤ) - ds.length)
      rw [hexp, zpow_natCast]
      push_cast
      ring
    · rw [textMagnitude_append (fun hmem => h (List.mem_of_mem_take hmem)) (by simp)]
      refine value_eq_of_places ?_ ?_
      · change Nat.ofDigitChars 10 (ds.take p ++ ds.drop p) 0 = _
        rw [List.take_append_drop]
      · change (p : ℤ) + (ds.drop p).length = ds.length
        rw [List.length_drop]
        omega
  | negSucc p =>
    change textMagnitude (['0'] ++ '.' :: (List.replicate (p + 1) '0' ++ ds)) = _
    rw [textMagnitude_append (by decide) (by simp)]
    refine value_eq_of_places ?_ ?_
    · exact ofDigitChars_zeros_append (p + 2) ds
    · change Int.negSucc p + ((List.replicate (p + 1) '0' ++ ds).length : ℤ) = ds.length
      rw [List.length_append, List.length_replicate]
      omega

end Decimal

/-! ## The text of a finite number -/

theorem isDigit_of_mem_shortest {c : Char} (hc : c ∈ n.shortest.digits) : c.isDigit = true := by
  rw [shortest_eq, List.mem_reverse] at hc
  have hmem := (List.dropWhile_sublist _).mem hc
  rw [List.mem_reverse] at hmem
  exact Nat.isDigit_of_mem_toDigits (by decide) (by decide) hmem

/-- The shortest decimal is what the search has found, with the point put back. -/
theorem value_shortest (n : Number) :
    n.shortest.value = n.interval.1.coarsest 16 * 10 ^ (n.interval.2 - 17) := by
  obtain ⟨k, hds⟩ := exists_append_zeros (Nat.toDigits 10 (n.interval.1.coarsest 16))
  have hread := congrArg (fun cs => Nat.ofDigitChars 10 cs 0) hds
  have hlength := congrArg List.length hds
  rw [shortest_eq, Decimal.value]
  dsimp only at hread ⊢
  generalize ((Nat.toDigits 10 (n.interval.1.coarsest 16)).reverse.dropWhile (· == '0')).reverse =
    kept at *
  rw [Nat.ofDigitChars_ten_toDigits, Nat.ofDigitChars_append, Nat.ofDigitChars_replicate_zero]
    at hread
  rw [List.length_append, List.length_replicate] at hlength
  have hexp : n.interval.2 - 17 + (Nat.toDigits 10 (n.interval.1.coarsest 16)).length - kept.length =
      k + (n.interval.2 - 17) := by omega
  rw [hexp, zpow_add₀ (by norm_num), zpow_natCast, hread]
  push_cast
  ring

/-- The shortest decimal is one that the number captures. -/
theorem exists_captures_shortest (h : n.isZero = false) :
    ∃ a b, 0 < b ∧ n.Captures a b ∧ n.shortest.value = (a : ℚ) / b := by
  refine ⟨_, _, by positivity, captures_of_holds (holds_coarsest h), ?_⟩
  have hpow := zpow_mul_toNat (b := 10) (by norm_num) (n.interval.2 - 17)
  rw [neg_sub] at hpow
  rw [value_shortest, eq_div_iff (by positivity)]
  push_cast
  rw [mul_assoc, hpow]

theorem Captures.pos {a b : Nat} (h : n.isZero = false) (hb : 0 < b) (hc : n.Captures a b) : 0 < a := by
  have hm := significand_pos h
  have hgap := n.gapBelow_cases
  have hlow : 0 < (4 * n.significand - n.gapBelow) * b * 2 ^ n.exponent.toNat := by
    have hends : 0 < 4 * n.significand - n.gapBelow := by omega
    positivity
  by_contra hzero
  obtain rfl : a = 0 := by omega
  have hle := hc.low_le
  omega

theorem value_shortest_pos (h : n.isZero = false) : 0 < n.shortest.value := by
  obtain ⟨a, b, hb, hc, hvalue⟩ := exists_captures_shortest h
  have ha := hc.pos h hb
  rw [hvalue]
  positivity

/-- Different magnitudes have different shortest decimals. -/
theorem rank_eq_of_value_shortest (hm : m.isZero = false) (hn : n.isZero = false)
    (h : m.shortest.value = n.shortest.value) : m.rank.toNat = n.rank.toNat := by
  obtain ⟨a, b, hb, hmc, hma⟩ := exists_captures_shortest hm
  obtain ⟨a', b', hb', hnc, hna⟩ := exists_captures_shortest hn
  have hcross : a * b' = a' * b := by
    have hne : (b : ℚ) ≠ 0 := by positivity
    have hne' : (b' : ℚ) ≠ 0 := by positivity
    rw [hma, hna, div_eq_div_iff hne hne'] at h
    exact_mod_cast h
  have hleft : m.Captures (a * b') (b * b') :=
    hmc.scale hb' Nat.one_pos (by ring) (by ring) (by ring)
  have hright : n.Captures (a * b') (b * b') := by
    rw [hcross]
    exact hnc.scale hb Nat.one_pos (by ring) (by ring) (by ring)
  exact hleft.rank_eq (Nat.mul_pos hb hb') hm hn hright

/-- What the texts of finite numbers are made of. -/
def isDecimalChar (c : Char) : Bool := c.isDigit || c == '.' || c == '-'

theorem display_of_isZero (h : n.isZero = true) : n.display = ['0'] := by
  have hfinite := isFinite_of_isZero h
  rw [display, hfinite.1, hfinite.2, h]
  rfl

theorem display_of_isFinite (h : n.IsFinite) (hzero : n.isZero = false) :
    n.display = n.signed Decimal.positional := by
  rw [display, h.1, h.2, hzero]
  rfl

theorem isDecimalChar_of_mem_display (h : n.IsFinite) {c : Char} (hc : c ∈ n.display) :
    isDecimalChar c = true := by
  have hpositional : ∀ c ∈ n.shortest.positional, isDecimalChar c = true := by
    intro c hc
    rcases Decimal.isDigit_or_eq_of_mem_positional (fun _ => isDigit_of_mem_shortest) hc
      with hdigit | rfl
    · simp [isDecimalChar, hdigit]
    · rfl
  cases hzero : n.isZero with
  | true =>
    rw [display_of_isZero hzero, List.mem_singleton] at hc
    rw [hc]
    rfl
  | false =>
    rw [display_of_isFinite h hzero, signed] at hc
    split_ifs at hc
    · rcases List.mem_cons.mp hc with rfl | hc
      · rfl
      · exact hpositional c hc
    · exact hpositional c hc

/-- The text of a number with its sign denotes the shortest decimal with this sign. -/
theorem textValue_display (h : n.IsFinite) (hzero : n.isZero = false) :
    textValue n.display = if n.isNegative then -n.shortest.value else n.shortest.value := by
  have hdot : '.' ∉ n.shortest.digits := fun hmem => by cases isDigit_of_mem_shortest hmem
  have hminus : '-' ∉ n.shortest.positional := by
    intro hmem
    rcases Decimal.isDigit_or_eq_of_mem_positional (fun _ => isDigit_of_mem_shortest) hmem
      with hdigit | heq
    · cases hdigit
    · cases heq
  rw [display_of_isFinite h hzero, signed, ← Decimal.textMagnitude_positional hdot]
  split_ifs
  · rfl
  · exact textValue_of_not_mem hminus

theorem textValue_display_of_isZero (h : n.isZero = true) : textValue n.display = 0 := by
  rw [display_of_isZero h, textValue_of_not_mem (by decide), textMagnitude_of_not_mem (by decide)]
  rfl

/-! ## What the text tells -/

/-- The same number, except that the zeros are not told apart, nor the patterns that stand for no value.
-/
inductive Same (m n : Number) : Prop where
  | eq (h : m = n)
  | zero (hm : m.isZero = true) (hn : n.isZero = true)
  | nan (hm : m.isNaN = true) (hn : n.isNaN = true)

theorem eq_of_rank (hsign : m.isNegative = n.isNegative) (hrank : m.rank.toNat = n.rank.toNat) :
    m = n := by
  have hm : m.isNegative = false ↔ _ := isNegative_eq_false
  have hn : n.isNegative = false ↔ _ := isNegative_eq_false
  rw [toNat_rank, toNat_rank] at hrank
  rw [hsign, hn] at hm
  have hmlt := m.bits.toNat_lt
  have hnlt := n.bits.toNat_lt
  have hbits : m.bits = n.bits := UInt64.toNat_inj.mp (by omega)
  cases m
  cases n
  congr

/-- A sign before a positive number can be told from the number. -/
theorem sign_inj {a b : Bool} {x y : ℚ} (hx : 0 < x) (hy : 0 < y)
    (h : (if a then -x else x) = if b then -y else y) : a = b ∧ x = y := by
  cases a <;> cases b
  · exact ⟨rfl, by simpa using h⟩
  · simp only [Bool.false_eq_true, if_false, if_true] at h
    linarith
  · simp only [Bool.false_eq_true, if_false, if_true] at h
    linarith
  · exact ⟨rfl, by simpa using h⟩

theorem Same.of_isFinite (hm : m.IsFinite) (hn : n.IsFinite) (h : m.display = n.display) :
    m.Same n := by
  have hvalue := congrArg textValue h
  cases hmz : m.isZero with
  | true =>
    cases hnz : n.isZero with
    | true => exact .zero hmz hnz
    | false =>
      have hpos := value_shortest_pos hnz
      rw [textValue_display_of_isZero hmz, textValue_display hn hnz] at hvalue
      split_ifs at hvalue <;> linarith
  | false =>
    have hpos := value_shortest_pos hmz
    cases hnz : n.isZero with
    | true =>
      rw [textValue_display_of_isZero hnz, textValue_display hm hmz] at hvalue
      split_ifs at hvalue <;> linarith
    | false =>
      have hpos' := value_shortest_pos hnz
      rw [textValue_display hm hmz, textValue_display hn hnz] at hvalue
      obtain ⟨hsign, hshortest⟩ := sign_inj hpos hpos' hvalue
      exact .eq (eq_of_rank hsign (rank_eq_of_value_shortest hmz hnz hshortest))

theorem display_of_isNaN (h : n.isNaN = true) : n.display = "NaN".toList := by
  rw [display, if_pos h]

theorem display_of_isInfinite (h : n.isInfinite = true) :
    n.display = if n.isNegative then "-Infinity".toList else "Infinity".toList := by
  have hnan : n.isNaN = false := by
    rw [isNaN, decide_eq_false_iff_not, UInt64.lt_iff_toNat_lt, isInfinite_eq_true.mp h]
    decide
  rw [display, hnan, h]
  rfl

/-- The text of what is not finite has a letter in it. -/
theorem isFinite_iff_forall_display : n.IsFinite ↔ ∀ c ∈ n.display, isDecimalChar c = true := by
  refine ⟨fun h c hc => isDecimalChar_of_mem_display h hc, fun h => ?_⟩
  by_contra hnot
  rcases not_isFinite_iff.mp hnot with hnan | hinf
  · rw [display_of_isNaN hnan] at h
    cases h 'N' (by decide)
  · rw [display_of_isInfinite hinf] at h
    cases h 'I' (by split_ifs <;> decide)

theorem Same.of_not_isFinite (hm : ¬ m.IsFinite) (hn : ¬ n.IsFinite) (h : m.display = n.display) :
    m.Same n := by
  rcases not_isFinite_iff.mp hm with hmnan | hminf
  · rcases not_isFinite_iff.mp hn with hnnan | hninf
    · exact .nan hmnan hnnan
    · rw [display_of_isNaN hmnan, display_of_isInfinite hninf] at h
      split_ifs at h <;> cases h
  · rcases not_isFinite_iff.mp hn with hnnan | hninf
    · rw [display_of_isInfinite hminf, display_of_isNaN hnnan] at h
      split_ifs at h <;> cases h
    · rw [display_of_isInfinite hminf, display_of_isInfinite hninf] at h
      refine .eq (eq_of_rank ?_ ?_)
      · cases hms : m.isNegative <;> cases hns : n.isNegative <;> rw [hms, hns] at h <;>
          first | rfl | cases h
      · rw [isInfinite_eq_true.mp hminf, isInfinite_eq_true.mp hninf]

/-- The text of a number tells which one it is, up to the sign of zero. -/
theorem display_eq_display_iff : m.display = n.display ↔ m.Same n := by
  constructor
  · intro h
    have hfinite : m.IsFinite ↔ n.IsFinite := by
      rw [isFinite_iff_forall_display, isFinite_iff_forall_display, h]
    by_cases hm : m.IsFinite
    · exact .of_isFinite hm (hfinite.mp hm) h
    · exact .of_not_isFinite hm (fun hn => hm (hfinite.mpr hn)) h
  · intro h
    cases h with
    | eq h => rw [h]
    | zero hm hn => rw [display_of_isZero hm, display_of_isZero hn]
    | nan hm hn => rw [display_of_isNaN hm, display_of_isNaN hn]

/-! ## Equality of values -/

theorem Same.symm (h : m.Same n) : n.Same m := by
  cases h with
  | eq h => exact .eq h.symm
  | zero hm hn => exact .zero hn hm
  | nan hm hn => exact .nan hn hm

theorem Same.trans {k : Number} (h : m.Same n) (h' : n.Same k) : m.Same k := by
  rw [← display_eq_display_iff] at h h' ⊢
  exact h.trans h'

theorem Same.isNaN_eq (h : m.Same n) : m.isNaN = n.isNaN := by
  cases h with
  | eq h => rw [h]
  | zero hm hn => rw [(isFinite_of_isZero hm).1, (isFinite_of_isZero hn).1]
  | nan hm hn => rw [hm, hn]

/-- Numbers are equal as values if they are the same and stand for a value at all. -/
theorem beq_eq_true_iff : (m == n) = true ↔ m.isNaN = false ∧ m.Same n := by
  change Number.beq m n = true ↔ _
  simp only [Number.beq, Bool.and_eq_true, Bool.or_eq_true, Bool.not_eq_true', beq_iff_eq]
  constructor
  · rintro ⟨⟨hm, -⟩, hbits | ⟨hmz, hnz⟩⟩
    · refine ⟨hm, .eq ?_⟩
      cases m
      cases n
      congr
    · exact ⟨hm, .zero hmz hnz⟩
  · rintro ⟨hm, hsame⟩
    have hn : n.isNaN = false := hsame.isNaN_eq ▸ hm
    refine ⟨⟨hm, hn⟩, ?_⟩
    cases hsame with
    | eq h => exact .inl (congrArg bits h)
    | zero hmz hnz => exact .inr ⟨hmz, hnz⟩
    | nan hnan =>
      rw [hm] at hnan
      cases hnan

theorem beq_self_iff : (n == n) = true ↔ n.isNaN = false := by
  rw [beq_eq_true_iff]
  exact ⟨fun h => h.1, fun h => ⟨h, .eq rfl⟩⟩

theorem beq_symm (h : (m == n) = true) : (n == m) = true := by
  obtain ⟨hm, hsame⟩ := beq_eq_true_iff.mp h
  exact beq_eq_true_iff.mpr ⟨hsame.isNaN_eq ▸ hm, hsame.symm⟩

theorem beq_trans {k : Number} (h : (m == n) = true) (h' : (n == k) = true) : (m == k) = true := by
  obtain ⟨hm, hsame⟩ := beq_eq_true_iff.mp h
  obtain ⟨-, hsame'⟩ := beq_eq_true_iff.mp h'
  exact beq_eq_true_iff.mpr ⟨hm, hsame.trans hsame'⟩

/-! ## The characters of the text -/

theorem Decimal.positional_ne_nil (d : Decimal) : d.positional ≠ [] := by
  obtain ⟨ds, point⟩ := d
  cases point with
  | ofNat p =>
    change (if p = 0 then '0' :: '.' :: ds else if ds.length ≤ p then
      ds ++ List.replicate (p - ds.length) '0' else ds.take p ++ '.' :: ds.drop p) ≠ []
    split_ifs with hzero hle
    · simp
    · intro hnil
      have hlength := congrArg List.length hnil
      rw [List.length_append, List.length_replicate, List.length_nil] at hlength
      omega
    · simp
  | negSucc p => exact List.cons_ne_nil _ _

/-- The text of a number begins with a digit, a sign or the initial of a word. -/
theorem exists_display_eq_cons (n : Number) :
    ∃ c cs, n.display = c :: cs ∧ (isDecimalChar c = true ∨ c = 'N' ∨ c = 'I') := by
  by_cases hfinite : n.IsFinite
  · have hne : n.display ≠ [] := by
      cases hzero : n.isZero with
      | true => simp [display_of_isZero hzero]
      | false =>
        rw [display_of_isFinite hfinite hzero, signed]
        split_ifs
        · exact List.cons_ne_nil _ _
        · exact n.shortest.positional_ne_nil
    obtain ⟨c, cs, hcs⟩ := List.exists_cons_of_ne_nil hne
    exact ⟨c, cs, hcs, .inl (isDecimalChar_of_mem_display hfinite (hcs ▸ List.mem_cons_self))⟩
  · rcases not_isFinite_iff.mp hfinite with hnan | hinf
    · exact ⟨'N', "aN".toList, display_of_isNaN hnan, .inr (.inl rfl)⟩
    · rw [display_of_isInfinite hinf]
      split_ifs
      · exact ⟨'-', "Infinity".toList, rfl, .inl rfl⟩
      · exact ⟨'I', "nfinity".toList, rfl, .inr (.inr rfl)⟩

/-- There are no punctuation marks in the text of a number. -/
theorem not_mark_of_mem_display {c : Char} (hc : c ∈ n.display) :
    (c != ',' && c != ']') = true := by
  by_cases hfinite : n.IsFinite
  · have hchar := isDecimalChar_of_mem_display hfinite hc
    have hcomma : c ≠ ',' := by
      rintro rfl
      cases hchar
    have hbracket : c ≠ ']' := by
      rintro rfl
      cases hchar
    simp [hcomma, hbracket]
  · have hall : n.display.all (fun c => c != ',' && c != ']') = true := by
      rcases not_isFinite_iff.mp hfinite with hnan | hinf
      · rw [display_of_isNaN hnan]
        rfl
      · rw [display_of_isInfinite hinf]
        split_ifs <;> rfl
    exact List.all_eq_true.mp hall c hc

end Egg.Number
