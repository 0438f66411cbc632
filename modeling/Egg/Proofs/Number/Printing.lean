import Egg.Number.Notation
import Egg.Proofs.Number.Reading

/-!
# Printing natural numbers

The decimal that a finite number is printed as lies in the interval of what is read as it, because
seventeen digits are enough for one to be there (`captures_coarsest`). If the number is a natural
number, its decimal is written with digits only, and reading them gives the number back
(`IsNatural.display_eq`).
-/

namespace Egg.Number

/-! ## Decimal digits -/

theorem lt_pow_decimalLength (a : Nat) : a < 10 ^ decimalLength a := by
  rw [decimalLength]
  split_ifs with ha
  · simp [ha]
  · exact (Nat.length_toDigits_le_iff (by decide) Nat.length_toDigits_pos).mp (Nat.le_refl _)

theorem decimalLength_pos {a : Nat} (ha : 0 < a) : 0 < decimalLength a := by
  rw [decimalLength, if_neg (by omega)]
  exact Nat.length_toDigits_pos

theorem pow_le_of_decimalLength {a : Nat} (ha : 0 < a) : 10 ^ (decimalLength a - 1) ≤ a := by
  by_contra hlt
  have hlength := decimalLength_pos ha
  by_cases hone : decimalLength a = 1
  · rw [hone] at hlt
    omega
  · have hle := (Nat.length_toDigits_le_iff (b := 10) (n := a) (by decide)
      (by omega : 0 < decimalLength a - 1)).mpr (by omega)
    rw [decimalLength, if_neg (by omega)] at *
    omega

/-- With the decimal point behind the seventeenth digit, the integer part has seventeen digits. -/
theorem pow_sixteen_mul_le {a b : Nat} (ha : 0 < a) (hb : 0 < b) :
    10 ^ 16 * (b * 10 ^ (decimalPoint a b - 17).toNat) ≤ a * 10 ^ (17 - decimalPoint a b).toNat := by
  rw [decimalPoint]
  split_ifs with hle
  · have hquotient : 0 < a / b := Nat.div_pos hle hb
    have hlength := decimalLength_pos hquotient
    have hpow : 10 ^ (decimalLength (a / b) - 1) * b ≤ a :=
      (Nat.le_div_iff_mul_le hb).mp (pow_le_of_decimalLength hquotient)
    generalize decimalLength (a / b) = l at *
    calc
      10 ^ 16 * (b * 10 ^ ((l : Int) - 17).toNat)
          = 10 ^ (16 + ((l : Int) - 17).toNat) * b := by rw [Nat.pow_add]; ring
      _ = 10 ^ (l - 1 + (17 - (l : Int)).toNat) * b := by congr 2; omega
      _ = 10 ^ (l - 1) * b * 10 ^ (17 - (l : Int)).toNat := by rw [Nat.pow_add]; ring
      _ ≤ a * 10 ^ (17 - (l : Int)).toNat := Nat.mul_le_mul_right _ hpow
  · have hpow : b ≤ a * 10 ^ decimalLength ((b - 1) / a) := by
      have hlt := (Nat.div_lt_iff_lt_mul ha).mp (lt_pow_decimalLength ((b - 1) / a))
      rw [Nat.mul_comm] at hlt
      omega
    generalize decimalLength ((b - 1) / a) = l at *
    calc
      10 ^ 16 * (b * 10 ^ (1 - (l : Int) - 17).toNat) = b * 10 ^ 16 := by
        rw [show (1 - (l : Int) - 17).toNat = 0 by omega]
        ring
      _ ≤ a * 10 ^ l * 10 ^ 16 := Nat.mul_le_mul_right _ hpow
      _ = a * 10 ^ (17 - (1 - (l : Int))).toNat := by
        rw [Nat.mul_assoc, ← Nat.pow_add, show (17 - (1 - (l : Int))).toNat = l + 16 by omega]

/-- The integer part has no more than seventeen digits then. -/
theorem lt_pow_seventeen_mul {a b : Nat} (ha : 0 < a) (hb : 0 < b) :
    a * 10 ^ (17 - decimalPoint a b).toNat < 10 ^ 17 * (b * 10 ^ (decimalPoint a b - 17).toNat) := by
  rw [decimalPoint]
  split_ifs with hle
  · have hpow : a < 10 ^ decimalLength (a / b) * b :=
      (Nat.div_lt_iff_lt_mul hb).mp (lt_pow_decimalLength (a / b))
    generalize decimalLength (a / b) = l at *
    calc
      a * 10 ^ (17 - (l : Int)).toNat < 10 ^ l * b * 10 ^ (17 - (l : Int)).toNat :=
        Nat.mul_lt_mul_of_pos_right hpow (by positivity)
      _ = 10 ^ (l + (17 - (l : Int)).toNat) * b := by rw [Nat.pow_add]; ring
      _ = 10 ^ (17 + ((l : Int) - 17).toNat) * b := by congr 2; omega
      _ = 10 ^ 17 * (b * 10 ^ ((l : Int) - 17).toNat) := by rw [Nat.pow_add]; ring
  · have hquotient : 0 < (b - 1) / a := Nat.div_pos (by omega) ha
    have hlength := decimalLength_pos hquotient
    have hpow : 10 ^ (decimalLength ((b - 1) / a) - 1) * a < b := by
      have hmul := (Nat.le_div_iff_mul_le ha).mp (pow_le_of_decimalLength hquotient)
      omega
    generalize decimalLength ((b - 1) / a) = l at *
    calc
      a * 10 ^ (17 - (1 - (l : Int))).toNat = 10 ^ (l - 1) * a * 10 ^ 17 := by
        rw [show (17 - (1 - (l : Int))).toNat = l - 1 + 17 by omega, Nat.pow_add]
        ring
      _ < b * 10 ^ 17 := Nat.mul_lt_mul_of_pos_right hpow (by positivity)
      _ = 10 ^ 17 * (b * 10 ^ (1 - (l : Int) - 17).toNat) := by
        rw [show (1 - (l : Int) - 17).toNat = 0 by omega]
        ring

theorem toDigits_mul_pow {a : Nat} (ha : 0 < a) (k : Nat) :
    Nat.toDigits 10 (a * 10 ^ k) = Nat.toDigits 10 a ++ List.replicate k '0' := by
  induction k with
  | zero => simp
  | succ k ih =>
    have hstep := Nat.toDigits_append_toDigits (b := 10) (n := a * 10 ^ k) (d := 0) (by decide)
      (by positivity) (by decide)
    rw [ih, Nat.toDigits_zero] at hstep
    rw [List.replicate_succ', ← List.append_assoc, hstep]
    congr 1
    ring

/-- Zeros at the end of the digits are not counted among the digits of a decimal. -/
theorem dropWhile_append_zeros (ds : List Char) (k : Nat) :
    ((ds ++ List.replicate k '0').reverse.dropWhile (· == '0')).reverse =
      (ds.reverse.dropWhile (· == '0')).reverse := by
  rw [List.reverse_append, List.reverse_replicate, List.dropWhile_append_of_pos]
  intro c hc
  simp [List.eq_of_mem_replicate hc]

/-- What is left of digits without the zeros at the end, and these zeros. -/
theorem exists_append_zeros (ds : List Char) :
    ∃ k, ds = (ds.reverse.dropWhile (· == '0')).reverse ++ List.replicate k '0' := by
  have hzeros : ds.reverse.takeWhile (· == '0') =
      List.replicate (ds.reverse.takeWhile (· == '0')).length '0' := by
    refine List.eq_replicate_of_mem fun c hc => ?_
    simpa using List.all_eq_true.mp List.all_takeWhile c hc
  have hsplit := List.takeWhile_append_dropWhile (p := (· == '0')) (l := ds.reverse)
  rw [hzeros] at hsplit
  generalize (ds.reverse.takeWhile (· == '0')).length = k at hsplit
  refine ⟨k, ?_⟩
  rw [← List.reverse_replicate, ← List.reverse_append, hsplit, List.reverse_reverse]

/-- In positional notation, an integer gets its last zeros back. -/
theorem positional_dropWhile_zeros {ds : List Char} (h : ds ≠ []) :
    Decimal.positional ⟨(ds.reverse.dropWhile (· == '0')).reverse, ds.length⟩ = ds := by
  obtain ⟨k, hds⟩ := exists_append_zeros ds
  generalize (ds.reverse.dropWhile (· == '0')).reverse = kept at hds ⊢
  have hlength : ds.length = kept.length + k := by rw [hds]; simp
  have hne : ds.length ≠ 0 := by simpa using h
  have hk : ds.length - kept.length = k := by omega
  change (if ds.length = 0 then _ else if kept.length ≤ ds.length then _ else _) = ds
  rw [if_neg hne, if_pos (by omega), hk, ← hds]

/-! ## The search -/

namespace Interval

variable {i : Interval} {c step : Nat}

theorem holds_iff : i.holds c = true ↔ Between (i.closed = false) i.low (c * i.unit) i.high := by
  rw [holds]
  cases i.closed with
  | true =>
    simp only [if_true, Bool.and_eq_true, decide_eq_true_eq]
    exact ⟨fun h => ⟨h.1, h.2, fun hopen => by cases hopen⟩, fun h => ⟨h.low_le, h.le_high⟩⟩
  | false =>
    simp only [Bool.false_eq_true, if_false, Bool.and_eq_true, decide_eq_true_eq]
    exact ⟨fun h => ⟨h.1.le, h.2.le, fun _ => h⟩, fun h => h.strict trivial⟩

/-- A candidate is a multiple of the step, and in the interval. -/
theorem of_candidate? (h : i.candidate? step = some c) : i.holds c = true ∧ step ∣ c := by
  have hbelow : step ∣ i.middle / (i.unit * step) * step := Nat.dvd_mul_left _ _
  have habove := Nat.dvd_add hbelow (Nat.dvd_refl step)
  simp only [candidate?] at h
  split at h
  · next hb ha =>
    split_ifs at h
    · cases h
      exact ⟨hb, hbelow⟩
    · cases h
      exact ⟨ha, habove⟩
  · next hb ha =>
    cases h
    exact ⟨hb, hbelow⟩
  · next hb ha =>
    cases h
    exact ⟨ha, habove⟩
  · cases h

theorem candidate?_isSome (h : i.holds (i.middle / (i.unit * step) * step) = true ∨
    i.holds (i.middle / (i.unit * step) * step + step) = true) : (i.candidate? step).isSome := by
  simp only [candidate?]
  split
  · rfl
  · rfl
  · rfl
  · next hb ha =>
    rw [hb, ha] at h
    cases h with
    | inl h => cases h
    | inr h => cases h

theorem coarsest_succ (i : Interval) (k : Nat) :
    i.coarsest (k + 1) = (i.candidate? (10 ^ (k + 1))).getD (i.coarsest k) := rfl

/-- From a step on that has a candidate, the search finds one. -/
theorem coarsest_spec {j k : Nat} (hjk : j ≤ k) (h : (i.candidate? (10 ^ j)).isSome) :
    i.holds (i.coarsest k) = true ∧ 10 ^ j ∣ i.coarsest k := by
  obtain ⟨c, hc⟩ := Option.isSome_iff_exists.mp h
  induction k with
  | zero =>
    obtain rfl : j = 0 := by omega
    rw [coarsest, ← Nat.pow_zero 10, hc, Option.getD_some]
    exact of_candidate? hc
  | succ k ih =>
    rw [coarsest_succ]
    cases hfirst : i.candidate? (10 ^ (k + 1)) with
    | some c' =>
      obtain ⟨hholds, hdvd⟩ := of_candidate? hfirst
      exact ⟨hholds, Nat.dvd_trans (Nat.pow_dvd_pow 10 hjk) hdvd⟩
    | none =>
      have hne : j ≠ k + 1 := by
        rintro rfl
        rw [hfirst] at hc
        cases hc
      exact ih (by omega)

/-- A step that divides the magnitude has a candidate. -/
theorem candidate?_isSome_of_eq {a : Nat} (hlow : i.low < i.middle) (hhigh : i.middle < i.high)
    (hstep : 0 < i.unit * step) (h : i.middle = a * (i.unit * step)) :
    (i.candidate? step).isSome := by
  refine candidate?_isSome (.inl (holds_iff.mpr ?_))
  have hexact : i.middle / (i.unit * step) * step * i.unit = i.middle := by
    rw [Nat.div_eq_of_eq_mul_left hstep h, h]
    ring
  rw [hexact]
  exact ⟨hlow.le, hhigh.le, fun _ => ⟨hlow, hhigh⟩⟩

/-- In an interval wider than the unit there is a number. -/
theorem candidate?_one_isSome (hlow : i.low < i.middle) (hhigh : i.middle < i.high)
    (hunit : 0 < i.unit) (hwide : i.low + i.unit < i.high) : (i.candidate? 1).isSome := by
  refine candidate?_isSome ?_
  rw [holds_iff, holds_iff]
  have hdiv := Nat.div_add_mod' i.middle i.unit
  have hmod := Nat.mod_lt i.middle hunit
  simp only [Nat.mul_one, Nat.add_mul, Nat.one_mul]
  generalize i.middle / i.unit * i.unit = below at *
  by_cases hbelow : i.low < below
  · exact .inl ⟨by omega, by omega, fun _ => ⟨by omega, by omega⟩⟩
  · exact .inr ⟨by omega, by omega, fun _ => ⟨by omega, by omega⟩⟩

end Interval

/-! ## The interval of a number -/

variable {n : Number}

/-- What a quarter of `2 ^ exponent` is in the interval of a number. -/
def scale (n : Number) : Nat := 10 ^ (17 - n.interval.2).toNat * 2 ^ n.exponent.toNat

theorem scale_pos (n : Number) : 0 < n.scale := by
  rw [scale]
  positivity

theorem interval_low (n : Number) :
    n.interval.1.low = (4 * n.significand - n.gapBelow) * n.scale := rfl

theorem interval_middle (n : Number) : n.interval.1.middle = 4 * n.significand * n.scale := rfl

theorem interval_high (n : Number) : n.interval.1.high = (4 * n.significand + 2) * n.scale := rfl

theorem interval_unit (n : Number) :
    n.interval.1.unit = 4 * 2 ^ (-n.exponent).toNat * 10 ^ (n.interval.2 - 17).toNat := rfl

theorem interval_closed (n : Number) : n.interval.1.closed = (n.significand % 2 == 0) := rfl

theorem interval_unit_pos (n : Number) : 0 < n.interval.1.unit := by
  rw [interval_unit]
  positivity

theorem gapBelow_pos (n : Number) : 0 < n.gapBelow := by
  rw [gapBelow]
  split_ifs <;> decide

/-- A narrow gap is below the least significand of an exponent. -/
theorem gapBelow_cases (n : Number) :
    n.gapBelow = 2 ∨ n.gapBelow = 1 ∧ n.significand = 2 ^ 52 := by
  rw [gapBelow]
  split_ifs with hnarrow
  · rw [hasNarrowGapBelow, Bool.and_eq_true, beq_iff_eq, decide_eq_true_eq] at hnarrow
    refine .inr ⟨rfl, ?_⟩
    rw [significand_eq, if_neg (by omega), hnarrow.1, Nat.add_zero]
  · exact .inl rfl

theorem interval_low_lt (hzero : n.isZero = false) : n.interval.1.low < n.interval.1.middle := by
  have hm := significand_pos hzero
  have hgap := n.gapBelow_pos
  rw [interval_low, interval_middle]
  exact Nat.mul_lt_mul_of_pos_right (by omega) n.scale_pos

theorem interval_lt_high (n : Number) : n.interval.1.middle < n.interval.1.high := by
  rw [interval_middle, interval_high]
  exact Nat.mul_lt_mul_of_pos_right (by omega) n.scale_pos

theorem interval_middle_eq (n : Number) : n.interval.1.middle =
    4 * n.significand * 2 ^ n.exponent.toNat * 10 ^ (17 - n.interval.2).toNat := by
  rw [interval_middle, scale, Nat.mul_assoc _ (2 ^ _), Nat.mul_comm (2 ^ _)]

/-- The middle has seventeen digits before the point. -/
theorem pow_sixteen_mul_unit_le (hzero : n.isZero = false) :
    10 ^ 16 * n.interval.1.unit ≤ n.interval.1.middle := by
  have hm := significand_pos hzero
  rw [interval_middle_eq]
  exact pow_sixteen_mul_le (a := 4 * n.significand * 2 ^ n.exponent.toNat)
    (b := 4 * 2 ^ (-n.exponent).toNat) (by positivity) (by positivity)

theorem middle_lt_pow_seventeen_mul (hzero : n.isZero = false) :
    n.interval.1.middle < 10 ^ 17 * n.interval.1.unit := by
  have hm := significand_pos hzero
  rw [interval_middle_eq]
  exact lt_pow_seventeen_mul (a := 4 * n.significand * 2 ^ n.exponent.toNat)
    (b := 4 * 2 ^ (-n.exponent).toNat) (by positivity) (by positivity)

/-- The interval of a number is wider than one unit in the seventeenth digit. -/
theorem interval_wide (hzero : n.isZero = false) :
    n.interval.1.low + n.interval.1.unit < n.interval.1.high := by
  have hm := significand_pos hzero
  have hmax := n.significand_lt
  have hscale := n.scale_pos
  -- The middle has seventeen digits before the point, but is less than `2 ^ 55` quarters.
  have hdigits := pow_sixteen_mul_unit_le hzero
  rw [interval_middle, Nat.mul_assoc] at hdigits
  rw [interval_low, interval_high, Nat.sub_mul, Nat.add_mul, Nat.mul_assoc]
  have hsig : n.significand * n.scale ≤ (2 ^ 53 - 1) * n.scale :=
    Nat.mul_le_mul_right _ (by omega)
  have hpos : 1 * n.scale ≤ n.significand * n.scale := Nat.mul_le_mul_right _ hm
  rcases n.gapBelow_cases with hgap | ⟨hgap, hleast⟩
  · rw [hgap]
    omega
  · rw [hgap]
    rw [hleast] at hdigits ⊢
    omega

/-- Seventeen digits are enough. -/
theorem interval_candidate?_one (hzero : n.isZero = false) :
    (n.interval.1.candidate? 1).isSome :=
  Interval.candidate?_one_isSome (interval_low_lt hzero) n.interval_lt_high n.interval_unit_pos
    (interval_wide hzero)

theorem holds_coarsest (hzero : n.isZero = false) :
    n.interval.1.holds (n.interval.1.coarsest 16) = true :=
  (Interval.coarsest_spec (Nat.zero_le 16) (interval_candidate?_one hzero)).1

/-- What is held by the interval, with the decimal point put back, is read as the number. -/
theorem captures_of_holds {c : Nat} (h : n.interval.1.holds c = true) :
    n.Captures (c * 10 ^ (n.interval.2 - 17).toNat) (10 ^ (17 - n.interval.2).toNat) := by
  have hbetween := Interval.holds_iff.mp h
  have hopen : n.significand % 2 = 1 ↔ n.interval.1.closed = false := by
    rw [interval_closed, beq_eq_false_iff_ne]
    omega
  rw [interval_low, interval_high, interval_unit, scale] at hbetween
  rw [Captures, hopen]
  refine hbetween.scale Nat.one_pos Nat.one_pos ?_ ?_ ?_ <;> ring

/-! ## Natural numbers -/

theorem pos_of_significand_eq {k : Nat} (hzero : n.isZero = false)
    (hk : n.significand * 2 ^ n.exponent.toNat = k * 2 ^ (-n.exponent).toNat) : 0 < k := by
  have hmul : 0 < n.significand * 2 ^ n.exponent.toNat :=
    Nat.mul_pos (significand_pos hzero) (Nat.two_pow_pos _)
  rw [hk] at hmul
  exact Nat.pos_of_mul_pos_right hmul

section Natural

variable {k : Nat} (hk : n.significand * 2 ^ n.exponent.toNat = k * 2 ^ (-n.exponent).toNat)
  (hpos : 0 < k)

include hk hpos

theorem isZero_eq_false_of_pos : n.isZero = false := by
  cases hzero : n.isZero with
  | false => rfl
  | true =>
    have hmul : 0 < k * 2 ^ (-n.exponent).toNat := by positivity
    rw [← hk, significand_eq_zero hzero, Nat.zero_mul] at hmul
    cases hmul

/-- From `1` on, the exponent is that of a number without a fraction of its own. -/
theorem le_biasedExponent : 1023 ≤ n.biasedExponent := by
  by_contra hlt
  have hmax := n.significand_lt
  have hup : n.exponent.toNat = 0 := by
    rw [exponent]
    split_ifs <;> omega
  have hdown : 53 ≤ (-n.exponent).toNat := by
    rw [exponent]
    split_ifs <;> omega
  have hpow : 2 ^ 53 ≤ 2 ^ (-n.exponent).toNat := Nat.pow_le_pow_right (by decide) hdown
  have hmul := Nat.le_mul_of_pos_left (2 ^ (-n.exponent).toNat) hpos
  rw [hup, Nat.pow_zero, Nat.mul_one] at hk
  omega

theorem interval_point : n.interval.2 = decimalLength k := by
  have hquotient : 4 * n.significand * 2 ^ n.exponent.toNat = k * (4 * 2 ^ (-n.exponent).toNat) := by
    rw [Nat.mul_assoc, hk]
    ring
  have hdown : 0 < 4 * 2 ^ (-n.exponent).toNat := by positivity
  change decimalPoint (4 * n.significand * 2 ^ n.exponent.toNat) (4 * 2 ^ (-n.exponent).toNat) = _
  rw [hquotient, decimalPoint, if_pos (Nat.le_mul_of_pos_left _ hpos), Nat.mul_div_cancel _ hdown]

/-- The decimal of a natural number has no fraction: with at most seventeen digits before the point,
the search stops at the exact value or before, and with more of them all digits stand before it. -/
theorem exists_mul_eq_coarsest : ∃ a, a * 10 ^ (17 - n.interval.2).toNat =
    n.interval.1.coarsest 16 * 10 ^ (n.interval.2 - 17).toNat := by
  have hpoint := interval_point hk hpos
  have hlength := decimalLength_pos hpos
  by_cases hle : decimalLength k ≤ 17
  · have hunit : (n.interval.2 - 17).toNat = 0 := by omega
    have hzero := isZero_eq_false_of_pos hk hpos
    have hstep : (n.interval.1.candidate? (10 ^ (17 - n.interval.2).toNat)).isSome := by
      refine Interval.candidate?_isSome_of_eq (a := k) (interval_low_lt hzero) n.interval_lt_high
        (Nat.mul_pos n.interval_unit_pos (by positivity)) ?_
      rw [interval_middle, interval_unit, scale, hunit]
      calc
        4 * n.significand * (10 ^ (17 - n.interval.2).toNat * 2 ^ n.exponent.toNat)
            = 4 * 10 ^ (17 - n.interval.2).toNat * (n.significand * 2 ^ n.exponent.toNat) := by ring
        _ = _ := by rw [hk]; ring
    obtain ⟨a, ha⟩ := (Interval.coarsest_spec (by omega : (17 - n.interval.2).toNat ≤ 16) hstep).2
    exact ⟨a, by rw [hunit, ha]; ring⟩
  · have hscale : (17 - n.interval.2).toNat = 0 := by omega
    exact ⟨_, by rw [hscale, Nat.pow_zero, Nat.mul_one]⟩

end Natural

theorem shortest_eq (n : Number) : n.shortest =
    ⟨((Nat.toDigits 10 (n.interval.1.coarsest 16)).reverse.dropWhile (· == '0')).reverse,
      n.interval.2 - 17 + (Nat.toDigits 10 (n.interval.1.coarsest 16)).length⟩ := rfl

/-- The shortest decimal, where it is the integer `a`. -/
theorem positional_shortest {a : Nat} (hpos : 0 < a) (h : a * 10 ^ (17 - n.interval.2).toNat =
    n.interval.1.coarsest 16 * 10 ^ (n.interval.2 - 17).toNat) :
    n.shortest.positional = Nat.toDigits 10 a := by
  have hcoarsest : 0 < n.interval.1.coarsest 16 := by
    have hmul : 0 < a * 10 ^ (17 - n.interval.2).toNat := by positivity
    rw [h] at hmul
    exact Nat.pos_of_mul_pos_right hmul
  -- One number, written down from either side of the equation.
  have hdigits : Nat.toDigits 10 a ++ List.replicate (17 - n.interval.2).toNat '0' =
      Nat.toDigits 10 (n.interval.1.coarsest 16) ++
        List.replicate (n.interval.2 - 17).toNat '0' := by
    rw [← toDigits_mul_pow hpos, ← toDigits_mul_pow hcoarsest, h]
  have hlength := congrArg List.length hdigits
  simp only [List.length_append, List.length_replicate] at hlength
  have hshortest : n.shortest =
      ⟨((Nat.toDigits 10 a).reverse.dropWhile (· == '0')).reverse, (Nat.toDigits 10 a).length⟩ := by
    rw [shortest_eq, ← dropWhile_append_zeros (Nat.toDigits 10 a), hdigits, dropWhile_append_zeros]
    congr 1
    omega
  rw [hshortest, positional_dropWhile_zeros Nat.toDigits_ne_nil]

/-- A positive natural number is printed as digits that are read as it. -/
theorem IsNatural.display_eq (h : n.IsNatural) (hzero : n.isZero = false) :
    ∃ a, n.display = Nat.toDigits 10 a ∧ ofNat a = n := by
  obtain ⟨k, hvalue⟩ := h.exists_nat
  have hneg := isNegative_eq_false_of_value hzero h.nonneg
  have hk := (value_eq_natCast_iff hneg).mp hvalue
  have hpos := pos_of_significand_eq hzero hk
  obtain ⟨a, ha⟩ := exists_mul_eq_coarsest hk hpos
  have hcaptures := captures_of_holds (holds_coarsest hzero)
  rw [← ha] at hcaptures
  have hrank := nearestRank_of_captures h.finite (le_biasedExponent hk hpos)
    (hcaptures.reduce (by positivity))
  have hapos : 0 < a := by
    rw [Nat.pos_iff_ne_zero]
    rintro rfl
    rw [isZero_eq_true.mpr hrank.symm] at hzero
    cases hzero
  refine ⟨a, ?_, eq_ofNat_of_rank hneg hrank⟩
  rw [display, h.finite.1, h.finite.2, hzero, signed, hneg]
  exact positional_shortest hapos ha

end Egg.Number
