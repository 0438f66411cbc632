import Egg.Number.Rounding
import Egg.Number.Shortest
import Egg.Proofs.Number.Exact
import Mathlib.Tactic.Ring

/-!
# Reading natural numbers

A natural number is read as the magnitude nearest to it. The numbers that are read as a given
magnitude fill the interval between the midpoints to its neighbours (`Captures`), and what is read is
either a natural number or too large (`ofNat_isNatural`).
-/

namespace Egg.Number

/-! ## Intervals -/

/-- `y` lies between two ends, and is neither of them if the interval is open. -/
structure Between (isOpen : Prop) (low y high : Nat) : Prop where
  low_le : low ≤ y
  le_high : y ≤ high
  strict : isOpen → low < y ∧ y < high

theorem Between.scale {isOpen : Prop} {low y high low' y' high' c d : Nat} (hc : 0 < c) (hd : 0 < d)
    (hlow : low * c = low' * d) (hy : y * c = y' * d) (hhigh : high * c = high' * d)
    (h : Between isOpen low y high) : Between isOpen low' y' high' := by
  have hle : ∀ {a b a' b' : Nat}, a * c = a' * d → b * c = b' * d → (a ≤ b ↔ a' ≤ b') := by
    intro a b a' b' ha hb
    rw [← Nat.mul_le_mul_right_iff hc, ha, hb, Nat.mul_le_mul_right_iff hd]
  refine ⟨(hle hlow hy).mp h.low_le, (hle hy hhigh).mp h.le_high, fun hopen => ?_⟩
  have hstrict := h.strict hopen
  rw [← Nat.not_le, ← Nat.not_le] at hstrict ⊢
  exact ⟨fun hnot => hstrict.1 ((hle hy hlow).mpr hnot),
    fun hnot => hstrict.2 ((hle hhigh hy).mpr hnot)⟩

/-! ## Rounding a quotient -/

/-- The rounded quotient is the number that the quotient is at most one half away from, and less than
that unless the number is even. -/
theorem roundQuotient_eq {a b m : Nat} (hb : 0 < b)
    (h : Between (m % 2 = 1) (2 * (m * b)) (2 * a + b) (2 * (m * b) + 2 * b)) :
    roundQuotient a b = m := by
  obtain ⟨hlow, hhigh, hstrict⟩ := h
  have hdiv := Nat.div_add_mod' a b
  have hmod := Nat.mod_lt a hb
  rw [roundQuotient]
  generalize a / b = q at *
  generalize a % b = r at *
  have hle : q ≤ m := by
    by_contra hlt
    have hmul : (m + 1) * b ≤ q * b := Nat.mul_le_mul_right b (by omega)
    rw [Nat.add_mul] at hmul
    omega
  have hge : m ≤ q + 1 := by
    by_contra hlt
    have hmul : (q + 2) * b ≤ m * b := Nat.mul_le_mul_right b (by omega)
    rw [Nat.add_mul] at hmul
    omega
  -- Either neighbour may be the nearest number; in a tie, the parity decides.
  obtain rfl | rfl : m = q ∨ m = q + 1 := by omega
  · split_ifs <;> omega
  · rw [Nat.add_mul] at hlow hstrict
    split_ifs <;> omega

theorem roundQuotient_mul {a b : Nat} (hb : 0 < b) : roundQuotient (a * b) b = a :=
  roundQuotient_eq hb ⟨by omega, by omega, fun _ => ⟨by omega, by omega⟩⟩

theorem div_le_roundQuotient (a b : Nat) : a / b ≤ roundQuotient a b := by
  rw [roundQuotient]
  split_ifs <;> omega

/-! ## The numbers that are read as a magnitude -/

variable {n : Number}

/-- How far below a magnitude the midpoint to its lower neighbour is, in quarters of
`2 ^ exponent`. -/
def gapBelow (n : Number) : Nat := if n.hasNarrowGapBelow then 1 else 2

/-- The quotient `a / b` lies between the midpoints from a magnitude to its neighbours. The midpoints
themselves belong to a magnitude with an even significand. All is measured in quarters of
`2 ^ exponent`, with a negative exponent on the other side. -/
def Captures (n : Number) (a b : Nat) : Prop :=
  Between (n.significand % 2 = 1)
    ((4 * n.significand - n.gapBelow) * b * 2 ^ n.exponent.toNat)
    (4 * a * 2 ^ (-n.exponent).toNat)
    ((4 * n.significand + 2) * b * 2 ^ n.exponent.toNat)

theorem Captures.reduce {a b : Nat} (hb : 0 < b) (h : n.Captures (a * b) b) : n.Captures a 1 :=
  h.scale Nat.one_pos hb (by ring) (by ring) (by ring)

/-- From `1` on, both powers of two of a magnitude are integers when the significand is taken as a
fraction of `2 ^ 52`. -/
theorem two_pow_exponent (hexp : 1023 ≤ n.biasedExponent) :
    2 ^ (n.biasedExponent - 1023) * 2 ^ (-n.exponent).toNat = 2 ^ n.exponent.toNat * 2 ^ 52 := by
  have hne : n.biasedExponent ≠ 0 := by omega
  have hsum : n.biasedExponent - 1023 + (-n.exponent).toNat = n.exponent.toNat + 52 := by
    rw [exponent, if_neg hne]
    omega
  rw [← Nat.pow_add, ← Nat.pow_add, hsum]

/-- The interval around a magnitude from `1` on, in units of `2 ^ -54` of its power of two. -/
theorem Captures.scaled {a : Nat} (h : n.Captures a 1) (hexp : 1023 ≤ n.biasedExponent) :
    Between (n.significand % 2 = 1)
      ((4 * n.significand - n.gapBelow) * 2 ^ (n.biasedExponent - 1023))
      (4 * (a * 2 ^ 52))
      ((4 * n.significand + 2) * 2 ^ (n.biasedExponent - 1023)) := by
  have hend : ∀ x, x * 1 * 2 ^ n.exponent.toNat * 2 ^ 52 =
      x * 2 ^ (n.biasedExponent - 1023) * 2 ^ (-n.exponent).toNat := by
    intro x
    rw [Nat.mul_assoc x (2 ^ (n.biasedExponent - 1023)), two_pow_exponent hexp]
    ring
  exact h.scale (Nat.two_pow_pos 52) (Nat.two_pow_pos _) (hend _) (by ring) (hend _)

theorem nearestRank_of_log2 {a k : Nat} (ha : a ≠ 0) (hk : a.log2 = k) :
    nearestRank a =
      min ((k + 1022) * 2 ^ 52 + roundQuotient (a * 2 ^ 52) (2 ^ k)) (2047 * 2 ^ 52) := by
  rw [nearestRank, if_neg ha, hk, toNat_infiniteRank]
  rfl

/-- A number from `2 ^ k` on that is nearest to `m · 2 ^ (k - 52)` has the significand `m`. -/
theorem nearestRank_of_between {a k m : Nat} (hle : 2 ^ k ≤ a) (hm : m < 2 ^ 53)
    (h : Between (m % 2 = 1) ((4 * m - 2) * 2 ^ k) (4 * (a * 2 ^ 52)) ((4 * m + 2) * 2 ^ k)) :
    nearestRank a = min ((k + 1022) * 2 ^ 52 + m) (2047 * 2 ^ 52) := by
  obtain ⟨hlow, hhigh, hstrict⟩ := h
  rw [Nat.sub_mul, Nat.mul_assoc] at hlow hstrict
  rw [Nat.add_mul, Nat.mul_assoc] at hhigh hstrict
  have hpos := Nat.two_pow_pos k
  have hmax : m * 2 ^ k ≤ (2 ^ 53 - 1) * 2 ^ k := Nat.mul_le_mul_right _ (by omega)
  have hlt : a < 2 ^ (k + 1) := by
    rw [Nat.pow_succ]
    omega
  have ha : a ≠ 0 := by omega
  have hround : roundQuotient (a * 2 ^ 52) (2 ^ k) = m :=
    roundQuotient_eq hpos ⟨by omega, by omega, fun hodd => by omega⟩
  rw [nearestRank_of_log2 ha ((Nat.log2_eq_iff ha).mpr ⟨hle, hlt⟩), hround]

/-- A number right below `2 ^ k` is rounded up to it. -/
theorem nearestRank_of_lt {a k : Nat} (hlt : a < 2 ^ k)
    (hlow : 2 ^ 54 * 2 ^ k ≤ 4 * (a * 2 ^ 52) + 2 ^ k) :
    nearestRank a = min ((k + 1023) * 2 ^ 52) (2047 * 2 ^ 52) := by
  cases k with
  | zero => omega
  | succ j =>
    rw [Nat.pow_succ] at hlow hlt
    have hpos := Nat.two_pow_pos j
    have ha : a ≠ 0 := by omega
    have hlog : a.log2 = j := (Nat.log2_eq_iff ha).mpr ⟨by omega, hlt⟩
    have hround : roundQuotient (a * 2 ^ 52) (2 ^ j) = 2 ^ 53 :=
      roundQuotient_eq hpos ⟨by omega, by omega, fun hodd => by omega⟩
    rw [nearestRank_of_log2 ha hlog, hround]
    omega

theorem significand_of_le (hexp : 1023 ≤ n.biasedExponent) :
    n.significand = 2 ^ 52 + n.fraction := by
  rw [significand_eq, if_neg (by omega)]

/-- Only the least significand of an exponent has a narrow gap below. -/
theorem gapBelow_of_le (hexp : 1023 ≤ n.biasedExponent) :
    n.gapBelow = if n.fraction = 0 then 1 else 2 := by
  have hone : 1 < n.biasedExponent := by omega
  simp [gapBelow, hasNarrowGapBelow, hone]

/-- From `1` on, every natural number that a magnitude captures is read as this magnitude. -/
theorem nearestRank_of_captures {a : Nat} (hfinite : n.IsFinite) (hexp : 1023 ≤ n.biasedExponent)
    (h : n.Captures a 1) : nearestRank a = n.rank.toNat := by
  have hscaled := h.scaled hexp
  have hrank := isFinite_iff.mp hfinite
  have hm := n.significand_lt
  obtain ⟨k, hk⟩ : ∃ k, n.biasedExponent = k + 1023 := ⟨n.biasedExponent - 1023, by omega⟩
  rw [gapBelow_of_le hexp, significand_of_le hexp, hk, Nat.add_sub_cancel] at hscaled
  rw [significand_of_le hexp] at hm
  rw [rank_eq, hk] at hrank ⊢
  generalize n.fraction = f at *
  have hpos := Nat.two_pow_pos k
  obtain ⟨hlow, hhigh, hstrict⟩ := hscaled
  by_cases hbelow : a < 2 ^ k
  · -- The number is closer to `2 ^ k` than to anything above it.
    have hf : f = 0 := by
      by_contra hne
      rw [if_neg hne, Nat.sub_mul, Nat.mul_assoc, Nat.add_mul] at hlow
      have hone : 1 * 2 ^ k ≤ f * 2 ^ k := Nat.mul_le_mul_right _ (by omega)
      omega
    subst hf
    rw [if_pos rfl, Nat.sub_mul] at hlow
    have hnearest := nearestRank_of_lt hbelow (by omega)
    omega
  · have hnearest : nearestRank a = min ((k + 1022) * 2 ^ 52 + (2 ^ 52 + f)) (2047 * 2 ^ 52) := by
      refine nearestRank_of_between (Nat.le_of_not_lt hbelow) hm ?_
      by_cases hf : f = 0
      · subst hf
        rw [if_pos rfl, Nat.sub_mul] at hlow
        refine ⟨?_, hhigh, fun hodd => by omega⟩
        rw [Nat.sub_mul]
        omega
      · rw [if_neg hf] at hlow hstrict
        exact ⟨hlow, hhigh, hstrict⟩
    omega

/-! ## What is read -/

theorem nearestRank_le (a : Nat) : nearestRank a ≤ 2047 * 2 ^ 52 := by
  rw [nearestRank]
  split_ifs
  · exact Nat.zero_le _
  · exact Nat.min_le_right _ _

theorem toNat_bits_ofNat (a : Nat) : (ofNat a).bits.toNat = nearestRank a := by
  have hle := nearestRank_le a
  rw [ofNat, UInt64.toNat_ofNat']
  exact Nat.mod_eq_of_lt (by omega)

theorem toNat_rank_ofNat (a : Nat) : (ofNat a).rank.toNat = nearestRank a := by
  have hle := nearestRank_le a
  rw [toNat_rank, toNat_bits_ofNat]
  exact Nat.mod_eq_of_lt (by omega)

theorem isNegative_ofNat (a : Nat) : (ofNat a).isNegative = false := by
  have hle := nearestRank_le a
  rw [isNegative_eq_false, toNat_bits_ofNat]
  omega

theorem eq_ofNat_of_rank {a : Nat} (hpos : n.isNegative = false)
    (h : nearestRank a = n.rank.toNat) : ofNat a = n := by
  have hbits : n.bits.toNat < 2 ^ 63 := isNegative_eq_false.mp hpos
  have heq : (ofNat a).bits = n.bits := by
    rw [← UInt64.toNat_inj, toNat_bits_ofNat, h, toNat_rank, Nat.mod_eq_of_lt hbits]
  cases n
  cases hof : ofNat a
  rw [hof] at heq
  congr

/-- From `2 ^ 52` on, there are no fractions. -/
theorem isNatural_of_large (hfinite : n.IsFinite) (hpos : n.isNegative = false)
    (hexp : 1075 ≤ n.biasedExponent) : n.IsNatural := by
  have hint : (-n.exponent).toNat = 0 := by
    rw [exponent, if_neg (by omega)]
    omega
  refine isNatural_of_value_eq hfinite
    ((value_eq_natCast_iff (k := n.significand * 2 ^ n.exponent.toNat) hpos).mpr ?_)
  rw [hint]
  ring

/-- Below `2 ^ 53`, the number itself is the significand, moved to the left. -/
theorem fields_ofNat {a : Nat} (ha : a ≠ 0) (hk : a.log2 ≤ 52) :
    (ofNat a).biasedExponent = a.log2 + 1023 ∧ (ofNat a).significand = a * 2 ^ (52 - a.log2) := by
  have hle := Nat.log2_self_le ha
  have hlt : a < 2 ^ (a.log2 + 1) := Nat.lt_log2_self
  have hround : roundQuotient (a * 2 ^ 52) (2 ^ a.log2) = a * 2 ^ (52 - a.log2) := by
    have hsplit : a * 2 ^ 52 = a * 2 ^ (52 - a.log2) * 2 ^ a.log2 := by
      rw [Nat.mul_assoc, ← Nat.pow_add, Nat.sub_add_cancel hk]
    rw [hsplit, roundQuotient_mul (Nat.two_pow_pos _)]
  have hnearest := nearestRank_of_log2 ha rfl
  rw [hround] at hnearest
  generalize a.log2 = k at *
  have hpow : 2 ^ k * 2 ^ (52 - k) = 2 ^ 52 := by rw [← Nat.pow_add, Nat.add_sub_cancel' hk]
  have hmin : 2 ^ 52 ≤ a * 2 ^ (52 - k) := by
    rw [← hpow]
    exact Nat.mul_le_mul_right _ hle
  have hmax : a * 2 ^ (52 - k) < 2 ^ 53 := by
    rw [Nat.pow_succ 2 k] at hlt
    have hmul := Nat.mul_lt_mul_of_pos_right hlt (Nat.two_pow_pos (52 - k))
    rw [Nat.mul_right_comm, hpow] at hmul
    omega
  have hrank := toNat_rank_ofNat a
  have hexp : (ofNat a).biasedExponent = k + 1023 := by
    rw [biasedExponent_eq, hrank, hnearest]
    omega
  refine ⟨hexp, ?_⟩
  have hfraction := (ofNat a).rank_eq
  rw [significand_of_le (by omega)]
  omega

theorem value_ofNat_of_log2_le {a : Nat} (ha : a ≠ 0) (hk : a.log2 ≤ 52) : (ofNat a).value = a := by
  obtain ⟨hexp, hsignificand⟩ := fields_ofNat ha hk
  have hexponent : (ofNat a).exponent = a.log2 - 52 := by
    rw [exponent, hexp, if_neg (by omega)]
    omega
  have hup : (ofNat a).exponent.toNat = 0 := by omega
  have hdown : (-(ofNat a).exponent).toNat = 52 - a.log2 := by omega
  rw [value_eq_natCast_iff (isNegative_ofNat a), hsignificand, hup, hdown, Nat.pow_zero, Nat.mul_one]

/-- What is read is a natural number, or too large for one. -/
theorem ofNat_isNatural_or_eq_infinity (a : Nat) : (ofNat a).IsNatural ∨ ofNat a = infinity := by
  have hle := nearestRank_le a
  have hrank := toNat_rank_ofNat a
  by_cases hmax : nearestRank a = 2047 * 2 ^ 52
  · right
    exact eq_ofNat_of_rank (n := infinity) rfl hmax
  · left
    have hfinite : (ofNat a).IsFinite := isFinite_iff.mpr (by omega)
    by_cases ha : a = 0
    · exact isNatural_of_isZero (isZero_eq_true.mpr (by rw [hrank, nearestRank, if_pos ha]))
    by_cases hk : a.log2 < 52
    · exact isNatural_of_value_eq hfinite (value_ofNat_of_log2_le ha hk.le)
    · refine isNatural_of_large hfinite (isNegative_ofNat a) ?_
      have hdiv : 2 ^ 52 ≤ a * 2 ^ 52 / 2 ^ a.log2 := by
        rw [Nat.le_div_iff_mul_le (Nat.two_pow_pos _), Nat.mul_comm]
        exact Nat.mul_le_mul_right _ (Nat.log2_self_le ha)
      have hround := div_le_roundQuotient (a * 2 ^ 52) (2 ^ a.log2)
      have hnearest := nearestRank_of_log2 ha rfl
      rw [biasedExponent_eq, hrank]
      omega

end Egg.Number
