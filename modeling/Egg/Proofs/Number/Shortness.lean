import Egg.Proofs.Number.Rounding
import Mathlib

/-!
# The fewest digits

No decimal with fewer digits than the shortest one is rounded to a number
(`RoundsTo.length_shortest_le`). With the decimal point behind the seventeenth digit, the decimals of
`j` digits from the first power of ten of the magnitude on are multiples of `10 ^ (17 - j)`. The search
looks at two multiples only, but the interval is convex, so if any multiple lies in it, then one of
these two does. A decimal that is too fine for the step is below that power of ten, and then the power
itself lies in the interval.
-/

namespace Egg.Number

namespace Interval

variable {i : Interval} {x y z : ℚ} {c step bound : Nat}

/-! ## Rational numbers in an interval -/

/-- The rational number `x` lies in the interval. -/
structure Contains (i : Interval) (x : ℚ) : Prop where
  low_le : i.low ≤ x * i.unit
  le_high : x * i.unit ≤ i.high
  strict : i.closed = false → i.low < x * i.unit ∧ x * i.unit < i.high

theorem holds_iff_contains : i.holds c = true ↔ i.Contains c := by
  rw [holds_iff]
  constructor
  · intro h
    exact ⟨by exact_mod_cast h.low_le, by exact_mod_cast h.le_high,
      fun hopen => by exact_mod_cast h.strict hopen⟩
  · intro h
    exact ⟨by exact_mod_cast h.low_le, by exact_mod_cast h.le_high,
      fun hopen => by exact_mod_cast h.strict hopen⟩

theorem Contains.convex (hx : i.Contains x) (hz : i.Contains z) (hxy : x ≤ y) (hyz : y ≤ z) :
    i.Contains y := by
  have hlow : x * i.unit ≤ y * i.unit := mul_le_mul_of_nonneg_right hxy (Nat.cast_nonneg _)
  have hhigh : y * i.unit ≤ z * i.unit := mul_le_mul_of_nonneg_right hyz (Nat.cast_nonneg _)
  exact ⟨hx.low_le.trans hlow, hhigh.trans hz.le_high, fun hopen =>
    ⟨(hx.strict hopen).1.trans_le hlow, hhigh.trans_lt (hz.strict hopen).2⟩⟩

/-- The magnitude lies in its own interval. -/
theorem contains_middle (hlow : i.low < i.middle) (hhigh : i.middle < i.high) (hunit : 0 < i.unit) :
    i.Contains (i.middle / i.unit) := by
  have hmiddle : (i.middle / i.unit : ℚ) * i.unit = i.middle :=
    div_mul_cancel₀ _ (by exact_mod_cast hunit.ne')
  refine ⟨?_, ?_, fun _ => ⟨?_, ?_⟩⟩ <;> rw [hmiddle]
  · exact_mod_cast hlow.le
  · exact_mod_cast hhigh.le
  · exact_mod_cast hlow
  · exact_mod_cast hhigh

/-! ## What the search finds -/

/-- If any multiple of the step lies in the interval, then one of the two around the magnitude does. -/
theorem candidate?_isSome_of_contains (hmiddle : i.Contains (i.middle / i.unit)) (hunit : 0 < i.unit)
    (hstep : 0 < step) (hdvd : step ∣ c) (h : i.Contains c) : (i.candidate? step).isSome := by
  obtain ⟨q, rfl⟩ := hdvd
  have hpos : 0 < i.unit * step := Nat.mul_pos hunit hstep
  have hq : (0 : ℚ) < i.unit := by exact_mod_cast hunit
  refine candidate?_isSome ?_
  rw [holds_iff_contains, holds_iff_contains]
  by_cases hle : q ≤ i.middle / (i.unit * step)
  · refine .inl (h.convex hmiddle ?_ ?_)
    · rw [Nat.mul_comm]
      exact_mod_cast Nat.mul_le_mul_right step hle
    · rw [le_div_iff₀ hq]
      have hdiv : i.middle / (i.unit * step) * step * i.unit ≤ i.middle := by
        rw [Nat.mul_assoc, Nat.mul_comm step]
        exact Nat.div_mul_le_self _ _
      exact_mod_cast hdiv
  · refine .inr (hmiddle.convex h ?_ ?_)
    · rw [div_le_iff₀ hq]
      have hdiv : i.middle ≤ (i.middle / (i.unit * step) * step + step) * i.unit := by
        refine (Nat.lt_mul_div_succ i.middle hpos).le.trans (Nat.le_of_eq ?_)
        ring
      exact_mod_cast hdiv
    · have hmul := Nat.mul_le_mul_right step (by omega : i.middle / (i.unit * step) + 1 ≤ q)
      rw [Nat.add_mul, Nat.one_mul, Nat.mul_comm q] at hmul
      exact_mod_cast hmul

/-- A candidate is one of the two multiples of the step around the magnitude. -/
theorem candidate?_eq (h : i.candidate? step = some c) :
    c = i.middle / (i.unit * step) * step ∨ c = i.middle / (i.unit * step) * step + step := by
  simp only [candidate?] at h
  split at h
  · split_ifs at h
    · exact .inl (Option.some.inj h).symm
    · exact .inr (Option.some.inj h).symm
  · exact .inl (Option.some.inj h).symm
  · exact .inr (Option.some.inj h).symm
  · cases h

/-- No candidate is above a multiple of the step that is above the magnitude. -/
theorem candidate?_le (hdvd : step ∣ bound) (hmiddle : i.middle < bound * i.unit)
    (h : i.candidate? step = some c) : c ≤ bound := by
  obtain ⟨q, rfl⟩ := hdvd
  have hlt : i.middle / (i.unit * step) < q := by
    refine Nat.div_lt_of_lt_mul ?_
    rwa [show i.unit * step * q = step * q * i.unit by ring]
  have hmul := Nat.mul_le_mul_right step (Nat.succ_le_of_lt hlt)
  rw [Nat.succ_mul, Nat.mul_comm q] at hmul
  rcases candidate?_eq h with rfl | rfl <;> omega

theorem coarsest_le {k : Nat} (hdvd : 10 ^ k ∣ bound) (hmiddle : i.middle < bound * i.unit) :
    i.coarsest k ≤ bound := by
  induction k with
  | zero =>
    rw [coarsest]
    cases hfirst : i.candidate? 1 with
    | some c => exact candidate?_le (one_dvd bound) hmiddle hfirst
    | none =>
      rw [Nat.mul_comm] at hmiddle
      exact (Nat.div_lt_of_lt_mul hmiddle).le
  | succ k ih =>
    rw [coarsest_succ]
    cases hfirst : i.candidate? (10 ^ (k + 1)) with
    | some c => exact candidate?_le hdvd hmiddle hfirst
    | none => exact ih ((Nat.pow_dvd_pow 10 (Nat.le_succ k)).trans hdvd)

end Interval

variable {n : Number} {x : ℚ}

/-! ## The interval of a number -/

/-- What a number captures lies in its interval, with the decimal point behind the seventeenth digit. -/
theorem Captures.contains {a b : Nat} (h : n.Captures a b) (hb : 0 < b) :
    n.interval.1.Contains (a / b * 10 ^ (17 - n.interval.2)) := by
  have hb' : (b : ℚ) ≠ 0 := by exact_mod_cast hb.ne'
  obtain ⟨t, ht⟩ : ∃ t : ℚ, t = 10 ^ (17 - n.interval.2).toNat / b := ⟨_, rfl⟩
  have htpos : 0 < t := by
    rw [ht]
    positivity
  have hpow := zpow_mul_toNat (b := 10) (by norm_num) (17 - n.interval.2)
  rw [neg_sub] at hpow
  -- All three are the ones of the captured quotient, up to one factor.
  have hlow : (n.interval.1.low : ℚ) =
      t * ((4 * n.significand - n.gapBelow) * b * 2 ^ n.exponent.toNat : ℕ) := by
    rw [interval_low, scale, ht]
    push_cast
    field_simp
  have hhigh : (n.interval.1.high : ℚ) =
      t * ((4 * n.significand + 2) * b * 2 ^ n.exponent.toNat : ℕ) := by
    rw [interval_high, scale, ht]
    push_cast
    field_simp
  have hx : (a / b * 10 ^ (17 - n.interval.2) : ℚ) * n.interval.1.unit =
      t * (4 * a * 2 ^ (-n.exponent).toNat : ℕ) := by
    rw [interval_unit, ht, ← hpow]
    push_cast
    field_simp
  have hopen : n.interval.1.closed = false → n.significand % 2 = 1 := by
    rw [interval_closed, beq_eq_false_iff_ne]
    omega
  refine ⟨?_, ?_, fun hclosed => ?_⟩
  · rw [hlow, hx]
    exact mul_le_mul_of_nonneg_left (by exact_mod_cast h.low_le) htpos.le
  · rw [hhigh, hx]
    exact mul_le_mul_of_nonneg_left (by exact_mod_cast h.le_high) htpos.le
  · obtain ⟨hless, hgreater⟩ := h.strict (hopen hclosed)
    rw [hlow, hhigh, hx]
    exact ⟨mul_lt_mul_of_pos_left (by exact_mod_cast hless) htpos,
      mul_lt_mul_of_pos_left (by exact_mod_cast hgreater) htpos⟩

theorem pow_sixteen_le_middle (hzero : n.isZero = false) :
    (10 ^ 16 : ℚ) ≤ n.interval.1.middle / n.interval.1.unit := by
  rw [le_div_iff₀ (by exact_mod_cast n.interval_unit_pos)]
  exact_mod_cast pow_sixteen_mul_unit_le hzero

theorem coarsest_pos (hzero : n.isZero = false) : 0 < n.interval.1.coarsest 16 :=
  Nat.pos_of_mul_pos_right
    ((captures_of_holds (holds_coarsest hzero)).pos hzero (by positivity))

/-! ## Lengths -/

/-- The last zeros of what the search has found are not among the digits. -/
theorem length_shortest_le_of_eq {a j t : Nat} (ha : 0 < a) (hlt : a < 10 ^ j)
    (h : n.interval.1.coarsest 16 = a * 10 ^ t) : n.shortest.digits.length ≤ j := by
  have hj : 0 < j := by
    rw [Nat.pos_iff_ne_zero]
    rintro rfl
    omega
  rw [shortest_eq]
  dsimp only
  rw [h, toDigits_mul_pow ha, dropWhile_append_zeros, List.length_reverse]
  calc
    ((Nat.toDigits 10 a).reverse.dropWhile (· == '0')).length ≤ (Nat.toDigits 10 a).reverse.length :=
      (List.dropWhile_sublist _).length_le
    _ = (Nat.toDigits 10 a).length := List.length_reverse
    _ ≤ j := (Nat.length_toDigits_le_iff (by decide) hj).mpr hlt

/-- A candidate that is a multiple of a power of ten has as many digits less. -/
theorem length_shortest_le_of_candidate {j : Nat} (hzero : n.isZero = false) (hj : 0 < j)
    (h : (n.interval.1.candidate? (10 ^ (17 - j))).isSome) : n.shortest.digits.length ≤ j := by
  have hdvd := (Interval.coarsest_spec (by omega : 17 - j ≤ 16) h).2
  have hbound : n.interval.1.coarsest 16 ≤ 10 ^ 17 :=
    Interval.coarsest_le (Nat.pow_dvd_pow 10 (by decide)) (middle_lt_pow_seventeen_mul hzero)
  obtain ⟨a, ha⟩ := hdvd
  rw [Nat.mul_comm] at ha
  have hapos : 0 < a := Nat.pos_of_mul_pos_right (ha ▸ coarsest_pos hzero)
  have hle : a ≤ 10 ^ j := by
    have hpow : 10 ^ 17 ≤ 10 ^ j * 10 ^ (17 - j) := by
      rw [← Nat.pow_add]
      exact Nat.pow_le_pow_right (by decide) (by omega)
    rw [ha] at hbound
    exact Nat.le_of_mul_le_mul_right (hbound.trans hpow) (by positivity)
  rcases Nat.lt_or_eq_of_le hle with hlt | rfl
  · exact length_shortest_le_of_eq hapos hlt ha
  · -- A carry through all digits: one of them is left.
    have hone := length_shortest_le_of_eq Nat.one_pos (by decide : 1 < 10 ^ 1)
      (t := j + (17 - j)) (by rw [ha, Nat.one_mul, Nat.pow_add])
    omega

/-- A decimal of `j` digits in the interval leads to a candidate with a step that leaves `j` digits. -/
theorem candidate?_isSome_of_decimal {d j : Nat} {e : ℤ} (hzero : n.isZero = false) (hj : 0 < j)
    (hd : d < 10 ^ j) (h : n.interval.1.Contains (d * 10 ^ e)) :
    (n.interval.1.candidate? (10 ^ (17 - j))).isSome := by
  have hunit := n.interval_unit_pos
  have hmiddle := Interval.contains_middle (interval_low_lt hzero) n.interval_lt_high hunit
  by_cases hgrid : ((17 - j : ℕ) : ℤ) ≤ e
  · -- The decimal is a point of the grid itself.
    obtain ⟨k, rfl⟩ := Int.eq_ofNat_of_zero_le (by omega : 0 ≤ e)
    refine Interval.candidate?_isSome_of_contains (c := d * 10 ^ k) hmiddle hunit (by positivity)
      ((Nat.pow_dvd_pow 10 (by omega)).trans (Nat.dvd_mul_left _ _)) ?_
    exact_mod_cast h
  · by_cases hlast : 17 ≤ j
    · rw [Nat.sub_eq_zero_of_le hlast]
      exact interval_candidate?_one hzero
    · -- The decimal is below the power of ten that the magnitude starts with.
      have hbelow : (d * 10 ^ e : ℚ) ≤ 10 ^ 16 := by
        calc
          (d * 10 ^ e : ℚ) ≤ 10 ^ j * 10 ^ e :=
            mul_le_mul_of_nonneg_right (by exact_mod_cast hd.le) (by positivity)
          _ = 10 ^ (j + e) := by rw [zpow_add₀ (by norm_num), zpow_natCast]
          _ ≤ 10 ^ (16 : ℤ) := zpow_le_zpow_right₀ (by norm_num) (by omega)
      have hpower := h.convex hmiddle hbelow (pow_sixteen_le_middle hzero)
      exact Interval.candidate?_isSome_of_contains (c := 10 ^ 16) hmiddle hunit (by positivity)
        (Nat.pow_dvd_pow 10 (by omega)) (by exact_mod_cast hpower)

/-- No decimal with fewer digits than the shortest one is rounded to the number. -/
theorem RoundsTo.length_shortest_le {d j : Nat} {e : ℤ} (h : RoundsTo x n) (hzero : n.isZero = false)
    (hx : |x| = d * 10 ^ e) (hd : d < 10 ^ j) : n.shortest.digits.length ≤ j := by
  have hne := h.ne_zero hzero
  have hj : 0 < j := by
    rw [Nat.pos_iff_ne_zero]
    rintro rfl
    obtain rfl : d = 0 := by omega
    rw [Nat.cast_zero, zero_mul, abs_eq_zero] at hx
    exact hne hx
  have hquotient : |x| = (d * 10 ^ e.toNat : ℕ) / (10 ^ (-e).toNat : ℕ) := by
    rw [hx, eq_div_iff (by positivity)]
    push_cast
    rw [mul_assoc, zpow_mul_toNat (by norm_num)]
  have hcontains := (h.captures hzero (by positivity) hquotient).contains (by positivity)
  rw [← hquotient, hx, mul_assoc, ← zpow_add₀ (by norm_num)] at hcontains
  exact length_shortest_le_of_candidate hzero hj (candidate?_isSome_of_decimal hzero hj hd hcontains)

end Egg.Number
