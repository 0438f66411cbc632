import Egg.Proofs.Number.Reading
import Mathlib.Algebra.Order.Field.Basic
import Mathlib.Order.Monotone.Basic

/-!
# The order of numbers

Ranks enumerate the magnitudes in increasing order, so comparing patterns is comparing values
(`less_iff`, `value_eq_iff`). The interval that a magnitude captures is bounded by the midpoints to
the magnitudes of the ranks before and behind it (`captures_iff`). Where two such intervals touch,
only one of the two ranks is even, so no quotient is captured by two magnitudes
(`Captures.rank_eq`).
-/

namespace Egg.Number

variable {m n : Number}

/-! ## The magnitude of a rank -/

/-- How far the next larger magnitude is away, in units of `2 ^ -1074`. -/
def stepAt (rank : Nat) : Nat := 2 ^ (rank / 2 ^ 52 - 1)

/-- The magnitude of a rank, in units of `2 ^ -1074`. -/
def magnitudeAt (rank : Nat) : Nat :=
  (if rank < 2 ^ 52 then rank else 2 ^ 52 + rank % 2 ^ 52) * stepAt rank

theorem stepAt_pos (rank : Nat) : 0 < stepAt rank := Nat.two_pow_pos _

theorem magnitudeAt_succ (rank : Nat) :
    magnitudeAt (rank + 1) = magnitudeAt rank + stepAt rank := by
  unfold magnitudeAt stepAt
  by_cases hlast : (rank + 1) % 2 ^ 52 = 0
  · -- The next rank starts a range of exponents.
    have hexp : (rank + 1) / 2 ^ 52 = rank / 2 ^ 52 + 1 := by omega
    have hmod : rank % 2 ^ 52 = 2 ^ 52 - 1 := by omega
    have hge : ¬ rank + 1 < 2 ^ 52 := by omega
    rw [if_neg hge, hexp, hlast, hmod]
    generalize hk : rank / 2 ^ 52 = k
    cases k with
    | zero =>
      have hrank : rank = 2 ^ 52 - 1 := by omega
      rw [if_pos (by omega), hrank]
      rfl
    | succ k =>
      rw [if_neg (by omega), Nat.add_sub_cancel, Nat.add_sub_cancel, Nat.pow_succ]
      omega
  · have hexp : (rank + 1) / 2 ^ 52 = rank / 2 ^ 52 := by omega
    have hmod : (rank + 1) % 2 ^ 52 = rank % 2 ^ 52 + 1 := by omega
    rw [hexp, hmod]
    split_ifs
    · ring
    · omega
    · omega
    · ring

theorem magnitudeAt_strictMono : StrictMono magnitudeAt := by
  refine strictMono_nat_of_lt_succ fun rank => ?_
  rw [magnitudeAt_succ]
  exact Nat.lt_add_of_pos_right (stepAt_pos rank)

theorem magnitudeAt_zero : magnitudeAt 0 = 0 := rfl

theorem magnitudeAt_rank (n : Number) :
    magnitudeAt n.rank.toNat = n.significand * stepAt n.rank.toNat := by
  have hexp := n.biasedExponent_eq
  rw [magnitudeAt, significand_eq, fraction_eq]
  split_ifs
  · rw [Nat.mod_eq_of_lt (by omega)]
  · omega
  · omega
  · rfl

/-- The power of two of a magnitude, on natural numbers. -/
theorem two_pow_exponent_mul (n : Number) :
    2 ^ n.exponent.toNat * 2 ^ 1074 = stepAt n.rank.toNat * 2 ^ (-n.exponent).toNat := by
  have hsum : n.exponent.toNat + 1074 = n.rank.toNat / 2 ^ 52 - 1 + (-n.exponent).toNat := by
    have hexp := n.biasedExponent_eq
    rw [exponent]
    split_ifs <;> omega
  rw [stepAt, ← Nat.pow_add, ← Nat.pow_add, hsum]

/-! ## Values -/

/-- The value of a finite number, in units of `2 ^ -1074`. -/
def units (n : Number) : ℤ :=
  if n.isNegative then -(magnitudeAt n.rank.toNat : ℤ) else magnitudeAt n.rank.toNat

theorem value_eq_units (n : Number) : n.value = n.units / 2 ^ 1074 := by
  have hne : (2 : ℚ) ^ (-n.exponent).toNat ≠ 0 := by positivity
  have hnat := congrArg (Nat.cast : ℕ → ℚ) (two_pow_exponent_mul n)
  rw [Nat.cast_mul, Nat.cast_mul, Nat.cast_pow, Nat.cast_pow, Nat.cast_pow, Nat.cast_ofNat] at hnat
  have hpow : (2 : ℚ) ^ n.exponent = stepAt n.rank.toNat / 2 ^ 1074 := by
    rw [eq_div_iff (by positivity), ← mul_left_inj' hne, mul_right_comm, zpow_mul_toNat two_ne_zero,
      hnat]
  rw [value, hpow, units, magnitudeAt_rank]
  generalize (2 : ℚ) ^ 1074 = unit
  split_ifs
  · push_cast
    ring
  · push_cast
    ring

theorem value_lt_value_iff : m.value < n.value ↔ m.units < n.units := by
  rw [value_eq_units, value_eq_units, div_lt_div_iff_of_pos_right (by positivity), Int.cast_lt]

theorem magnitudeAt_rank_eq_zero : magnitudeAt n.rank.toNat = 0 ↔ n.isZero = true := by
  rw [isZero_eq_true]
  exact magnitudeAt_strictMono.injective.eq_iff' magnitudeAt_zero

/-- On finite numbers, the order of patterns is the order of values. -/
theorem less_iff (hm : m.IsFinite) (hn : n.IsFinite) : m.less n = true ↔ m.value < n.value := by
  have hrank : ∀ k l : Number, k.rank < l.rank ↔
      magnitudeAt k.rank.toNat < magnitudeAt l.rank.toNat := by
    intro k l
    rw [UInt64.lt_iff_toNat_lt, magnitudeAt_strictMono.lt_iff_lt]
  rw [value_lt_value_iff, less, hm.1, hn.1, units, units]
  cases m.isNegative with
  | false =>
    cases n.isNegative with
    | false => simp [hrank]
    | true =>
      simp only [Bool.not_false, Bool.true_and, Bool.false_eq_true, if_false, if_true, false_iff]
      omega
  | true =>
    cases n.isNegative with
    | false =>
      -- A negative number is below a positive one, unless both are zero.
      have hzero : (m.isZero && n.isZero) = true ↔
          magnitudeAt m.rank.toNat = 0 ∧ magnitudeAt n.rank.toNat = 0 := by
        rw [Bool.and_eq_true, magnitudeAt_rank_eq_zero, magnitudeAt_rank_eq_zero]
      simp only [Bool.not_false, Bool.true_and, Bool.false_eq_true, if_false, if_true]
      rw [Bool.not_eq_true', ← Bool.not_eq_true, hzero]
      omega
    | true => simp [hrank]

/-! ## Midpoints -/

/-- The even significands are those of the even ranks. -/
theorem significand_mod_two (n : Number) : n.significand % 2 = n.rank.toNat % 2 := by
  rw [significand_eq, fraction_eq]
  split_ifs <;> omega

theorem upper_midpoint (n : Number) : (4 * n.significand + 2) * stepAt n.rank.toNat =
    2 * (magnitudeAt n.rank.toNat + magnitudeAt (n.rank.toNat + 1)) := by
  rw [magnitudeAt_succ, magnitudeAt_rank]
  ring

/-- The gap below a magnitude is half of the step that leads to it. -/
theorem gapBelow_mul_stepAt {r : Nat} (hr : n.rank.toNat = r + 1) :
    n.gapBelow * stepAt (r + 1) = 2 * stepAt r := by
  have hexp := n.biasedExponent_eq
  have hfraction := n.fraction_eq
  rw [hr] at hexp hfraction
  rw [gapBelow, stepAt, stepAt]
  split_ifs with hnarrow
  · rw [hasNarrowGapBelow, Bool.and_eq_true, beq_iff_eq, decide_eq_true_eq] at hnarrow
    obtain ⟨k, hk⟩ : ∃ k, (r + 1) / 2 ^ 52 = k + 2 := ⟨(r + 1) / 2 ^ 52 - 2, by omega⟩
    have hbelow : r / 2 ^ 52 = k + 1 := by omega
    rw [hk, hbelow, Nat.add_sub_cancel, Nat.one_mul]
    show 2 ^ (k + 1) = _
    rw [Nat.pow_succ, Nat.mul_comm]
  · have hwide : (r + 1) / 2 ^ 52 - 1 = r / 2 ^ 52 - 1 := by
      simp only [hasNarrowGapBelow, Bool.and_eq_true, beq_iff_eq, decide_eq_true_eq] at hnarrow
      omega
    rw [hwide]

theorem lower_midpoint {r : Nat} (hr : n.rank.toNat = r + 1) :
    (4 * n.significand - n.gapBelow) * stepAt n.rank.toNat =
      2 * (magnitudeAt r + magnitudeAt n.rank.toNat) := by
  have hmagnitude := n.magnitudeAt_rank
  have hsucc := magnitudeAt_succ r
  have hgap := gapBelow_mul_stepAt hr
  rw [hr] at hmagnitude ⊢
  rw [Nat.sub_mul, Nat.mul_assoc, ← hmagnitude, hgap]
  omega

/-- A magnitude captures what lies between the midpoints to the magnitudes of the ranks around its
own. -/
theorem captures_iff {a b r : Nat} (hr : n.rank.toNat = r + 1) :
    n.Captures a b ↔ Between ((r + 1) % 2 = 1) ((magnitudeAt r + magnitudeAt (r + 1)) * b)
      (2 * a * 2 ^ 1074) ((magnitudeAt (r + 1) + magnitudeAt (r + 2)) * b) := by
  have hparity : n.significand % 2 = (r + 1) % 2 := by rw [significand_mod_two, hr]
  have hlow := lower_midpoint hr
  have hhigh := n.upper_midpoint
  have hpow := n.two_pow_exponent_mul
  have hpos : 0 < 2 * 2 ^ (-n.exponent).toNat := by positivity
  rw [hr] at hlow hhigh hpow
  rw [Captures, hparity]
  have hends : ∀ x y, x * stepAt (r + 1) = 2 * y →
      x * b * 2 ^ n.exponent.toNat * 2 ^ 1074 = y * b * (2 * 2 ^ (-n.exponent).toNat) := by
    intro x y hxy
    calc
      x * b * 2 ^ n.exponent.toNat * 2 ^ 1074
          = x * b * (2 ^ n.exponent.toNat * 2 ^ 1074) := by rw [Nat.mul_assoc]
      _ = x * stepAt (r + 1) * b * 2 ^ (-n.exponent).toNat := by rw [hpow]; ring
      _ = y * b * (2 * 2 ^ (-n.exponent).toNat) := by rw [hxy]; ring
  have hmiddle : 4 * a * 2 ^ (-n.exponent).toNat * 2 ^ 1074 =
      2 * a * 2 ^ 1074 * (2 * 2 ^ (-n.exponent).toNat) := by
    generalize 2 ^ 1074 = unit
    ring
  constructor
  · exact fun h => h.scale (by positivity) hpos (hends _ _ hlow) hmiddle (hends _ _ hhigh)
  · exact fun h => h.scale hpos (by positivity) (hends _ _ hlow).symm hmiddle.symm
      (hends _ _ hhigh).symm

theorem exists_rank_eq_succ (h : n.isZero = false) : ∃ r, n.rank.toNat = r + 1 := by
  refine Nat.exists_eq_succ_of_ne_zero fun hzero => ?_
  rw [isZero_eq_true.mpr hzero] at h
  cases h

theorem Captures.rank_le {a b : Nat} (hb : 0 < b) (hm : m.isZero = false) (hn : n.isZero = false)
    (h : m.Captures a b) (h' : n.Captures a b) : n.rank.toNat ≤ m.rank.toNat := by
  obtain ⟨r, hr⟩ := exists_rank_eq_succ hm
  obtain ⟨q, hq⟩ := exists_rank_eq_succ hn
  have hlower := (captures_iff hr).mp h
  have hupper := (captures_iff hq).mp h'
  by_contra hlt
  have hfirst : magnitudeAt (r + 1) ≤ magnitudeAt q := magnitudeAt_strictMono.monotone (by omega)
  have hsecond : magnitudeAt (r + 2) ≤ magnitudeAt (q + 1) :=
    magnitudeAt_strictMono.monotone (by omega)
  have hle : (magnitudeAt (r + 1) + magnitudeAt (r + 2)) * b ≤
      (magnitudeAt q + magnitudeAt (q + 1)) * b := Nat.mul_le_mul_right b (by omega)
  have hhigh := hlower.le_high
  have hlow := hupper.low_le
  by_cases hnext : q = r + 1
  · -- The intervals touch in one point, which belongs to the even one of the two ranks.
    obtain hodd | hodd : (r + 1) % 2 = 1 ∨ (q + 1) % 2 = 1 := by omega
    · have hstrict := (hlower.strict hodd).2
      omega
    · have hstrict := (hupper.strict hodd).1
      omega
  · have hless : magnitudeAt (r + 1) < magnitudeAt q := magnitudeAt_strictMono (by omega)
    have hmul : (magnitudeAt (r + 1) + magnitudeAt (r + 2)) * b <
        (magnitudeAt q + magnitudeAt (q + 1)) * b := Nat.mul_lt_mul_of_pos_right (by omega) hb
    omega

/-- No quotient is captured by two magnitudes. -/
theorem Captures.rank_eq {a b : Nat} (hb : 0 < b) (hm : m.isZero = false) (hn : n.isZero = false)
    (h : m.Captures a b) (h' : n.Captures a b) : m.rank.toNat = n.rank.toNat :=
  Nat.le_antisymm (h'.rank_le hb hn hm h) (h.rank_le hb hm hn h')

end Egg.Number
