import Egg.Number.Basic
import Mathlib.Algebra.Order.Ring.Rat
import Mathlib.Tactic.FieldSimp
import Mathlib.Tactic.Linarith
import Mathlib.Tactic.Positivity

/-!
# The exact value of a number

The fields of a bit pattern with their bounds, the rational number that a finite pattern stands for,
and the numbers that are equal to a natural number.
-/

namespace Egg.Number

variable {n : Number}

/-! ## The fields of the bit pattern -/

theorem toNat_signBit : signBit.toNat = 2 ^ 63 := rfl

theorem toNat_infiniteRank : infiniteRank.toNat = 2047 * 2 ^ 52 := rfl

theorem toNat_rank (n : Number) : n.rank.toNat = n.bits.toNat % 2 ^ 63 := by
  rw [rank, UInt64.toNat_mod, toNat_signBit]

theorem isNegative_eq_false : n.isNegative = false ↔ n.bits.toNat < 2 ^ 63 := by
  rw [isNegative, decide_eq_false_iff_not, UInt64.le_iff_toNat_le, toNat_signBit, Nat.not_le]

theorem isInfinite_eq_true : n.isInfinite = true ↔ n.rank.toNat = 2047 * 2 ^ 52 := by
  rw [isInfinite, beq_iff_eq, ← UInt64.toNat_inj, toNat_infiniteRank]

theorem isZero_eq_true : n.isZero = true ↔ n.rank.toNat = 0 := by
  rw [isZero, beq_iff_eq, ← UInt64.toNat_inj]
  rfl

/-- Whether the pattern stands for a rational number. -/
def IsFinite (n : Number) : Prop := n.isNaN = false ∧ n.isInfinite = false

theorem isFinite_iff : n.IsFinite ↔ n.rank.toNat < 2047 * 2 ^ 52 := by
  have hnan : n.isNaN = false ↔ n.rank.toNat ≤ 2047 * 2 ^ 52 := by
    rw [isNaN, decide_eq_false_iff_not, UInt64.lt_iff_toNat_lt, toNat_infiniteRank, Nat.not_lt]
  have hinf := not_congr (isInfinite_eq_true (n := n))
  rw [Bool.not_eq_true] at hinf
  rw [IsFinite, hnan, hinf]
  omega

theorem not_isFinite_iff : ¬ n.IsFinite ↔ n.isNaN = true ∨ n.isInfinite = true := by
  rw [IsFinite, not_and_or, Bool.not_eq_false, Bool.not_eq_false]

theorem isFinite_of_isZero (h : n.isZero = true) : n.IsFinite := by
  rw [isFinite_iff, isZero_eq_true.mp h]
  decide

theorem biasedExponent_eq (n : Number) : n.biasedExponent = n.rank.toNat / 2 ^ 52 := rfl

theorem fraction_eq (n : Number) : n.fraction = n.rank.toNat % 2 ^ 52 := rfl

theorem significand_eq (n : Number) :
    n.significand = if n.biasedExponent = 0 then n.fraction else 2 ^ 52 + n.fraction := rfl

theorem fraction_lt (n : Number) : n.fraction < 2 ^ 52 := Nat.mod_lt _ (by decide)

theorem rank_eq (n : Number) : n.rank.toNat = n.biasedExponent * 2 ^ 52 + n.fraction := by
  rw [biasedExponent_eq, fraction_eq, Nat.mul_comm]
  exact (Nat.div_add_mod _ _).symm

theorem significand_lt (n : Number) : n.significand < 2 ^ 53 := by
  have hfraction := n.fraction_lt
  rw [significand_eq]
  split <;> omega

theorem significand_pos (h : n.isZero = false) : 0 < n.significand := by
  have hrank : n.rank.toNat ≠ 0 := by
    rw [← Bool.not_eq_true, isZero_eq_true] at h
    exact h
  rw [rank_eq] at hrank
  rw [significand_eq]
  split
  · next hexp => simpa [hexp, Nat.pos_iff_ne_zero] using hrank
  · omega

theorem significand_eq_zero (h : n.isZero = true) : n.significand = 0 := by
  have hrank := isZero_eq_true.mp h
  rw [rank_eq] at hrank
  have hexp : n.biasedExponent = 0 := by omega
  have hfraction : n.fraction = 0 := by omega
  rw [significand_eq, if_pos hexp, hfraction]

/-! ## The value -/

/-- The rational number that a finite number is. -/
def value (n : Number) : ℚ :=
  (if n.isNegative then -1 else 1) * n.significand * 2 ^ n.exponent

/-- A finite number that is an integer and not below zero. Negative zero is one of them. -/
structure IsNatural (n : Number) : Prop where
  finite : n.IsFinite
  integral : ∃ z : ℤ, n.value = z
  nonneg : 0 ≤ n.value

theorem value_eq_zero (h : n.isZero = true) : n.value = 0 := by
  simp [value, significand_eq_zero h]

theorem isNatural_of_isZero (h : n.isZero = true) : n.IsNatural where
  finite := isFinite_of_isZero h
  integral := ⟨0, by simp [value_eq_zero h]⟩
  nonneg := (value_eq_zero h).ge

/-- A power with an integer exponent, as a quotient of powers with natural exponents. -/
theorem zpow_mul_toNat {b : ℚ} (hb : b ≠ 0) (q : ℤ) : b ^ q * b ^ (-q).toNat = b ^ q.toNat := by
  rw [← zpow_natCast, ← zpow_natCast, ← zpow_add₀ hb]
  congr 1
  omega

theorem abs_value (n : Number) : |n.value| = n.significand * 2 ^ n.exponent := by
  have hnonneg : (0 : ℚ) ≤ n.significand * 2 ^ n.exponent :=
    mul_nonneg (Nat.cast_nonneg _) (zpow_nonneg (by norm_num) _)
  rw [value, mul_assoc]
  cases n.isNegative with
  | false => rw [if_neg Bool.false_ne_true, one_mul, abs_of_nonneg hnonneg]
  | true => rw [if_pos rfl, neg_one_mul, abs_neg, abs_of_nonneg hnonneg]

/-- On natural numbers: a magnitude is `k` if its significand is, with the exponent on the side where it
is not negative. -/
theorem abs_value_eq_natCast_iff {k : ℕ} :
    |n.value| = k ↔ n.significand * 2 ^ n.exponent.toNat = k * 2 ^ (-n.exponent).toNat := by
  have hne : (2 : ℚ) ^ (-n.exponent).toNat ≠ 0 := by positivity
  rw [abs_value, ← mul_left_inj' hne, mul_assoc, zpow_mul_toNat two_ne_zero]
  exact_mod_cast Iff.rfl

theorem value_eq_natCast_iff {k : ℕ} (hpos : n.isNegative = false) :
    n.value = k ↔ n.significand * 2 ^ n.exponent.toNat = k * 2 ^ (-n.exponent).toNat := by
  have hvalue : n.value = |n.value| := by
    rw [abs_value, value, hpos, if_neg Bool.false_ne_true, one_mul]
  rw [← abs_value_eq_natCast_iff, ← hvalue]

theorem value_pos (hpos : n.isNegative = false) (hzero : n.isZero = false) : 0 < n.value := by
  have hm : (0 : ℚ) < n.significand := by exact_mod_cast significand_pos hzero
  have hp : (0 : ℚ) < 2 ^ n.exponent := zpow_pos (by norm_num) _
  rw [value, hpos, if_neg Bool.false_ne_true, one_mul]
  exact mul_pos hm hp

theorem isNegative_eq_false_of_value (h : n.isZero = false) (hvalue : 0 ≤ n.value) :
    n.isNegative = false := by
  cases hneg : n.isNegative with
  | false => rfl
  | true =>
    have hm : (0 : ℚ) < n.significand := by exact_mod_cast significand_pos h
    have hp : (0 : ℚ) < 2 ^ n.exponent := zpow_pos (by norm_num) _
    have hprod := mul_pos hm hp
    rw [value, hneg, if_pos rfl] at hvalue
    linarith

/-- The natural number that a natural number in this sense is equal to. -/
theorem IsNatural.exists_nat (h : n.IsNatural) : ∃ k : ℕ, n.value = k := by
  obtain ⟨z, hz⟩ := h.integral
  have hnonneg : 0 ≤ z := by
    have hvalue := h.nonneg
    rw [hz] at hvalue
    exact_mod_cast hvalue
  obtain ⟨k, rfl⟩ := Int.eq_ofNat_of_zero_le hnonneg
  exact ⟨k, by rw [hz]; rfl⟩

theorem isNatural_of_value_eq {k : ℕ} (hfinite : n.IsFinite) (h : n.value = k) : n.IsNatural where
  finite := hfinite
  integral := ⟨k, by rw [h]; rfl⟩
  nonneg := by
    rw [h]
    exact Nat.cast_nonneg k

end Egg.Number
