import Egg.Proofs.Number.Denotation
import Egg.Proofs.Number.Nearest
import Mathlib

/-!
# Rounding rational numbers

A rational number is rounded to the nearest number, to the even one of two that are equally near, and
with its sign. From half a step beyond the largest finite number on it is not rounded to a finite number
(`RoundsTo`). No two numbers are what a rational number is rounded to (`RoundsTo.eq`), and a number
other than zero is what exactly those are rounded to that its magnitude captures (`RoundsTo.captures`,
`Captures.roundsTo`).
-/

namespace Egg.Number

variable {m n : Number}

/-! ## Opposite numbers -/

/-- The number with the other sign. -/
def opposite (n : Number) : Number := ⟨n.bits + signBit⟩

theorem toNat_bits_opposite (n : Number) :
    n.opposite.bits.toNat = (n.bits.toNat + 2 ^ 63) % 2 ^ 64 := by
  rw [opposite, UInt64.toNat_add, toNat_signBit]

theorem toNat_rank_opposite (n : Number) : n.opposite.rank.toNat = n.rank.toNat := by
  rw [toNat_rank, toNat_rank, toNat_bits_opposite]
  omega

theorem isNegative_opposite (n : Number) : n.opposite.isNegative = !n.isNegative := by
  have hlt := n.bits.toNat_lt
  have hop : n.opposite.isNegative = false ↔ _ := isNegative_eq_false
  rw [toNat_bits_opposite] at hop
  cases hsign : n.isNegative with
  | false =>
    have hpos := isNegative_eq_false.mp hsign
    rw [Bool.not_false, ← Bool.not_eq_false, hop]
    omega
  | true =>
    have hneg := mt isNegative_eq_false.mpr (Bool.not_eq_false _ ▸ hsign)
    rw [Bool.not_true, hop]
    omega

theorem opposite_opposite (n : Number) : n.opposite.opposite = n := by
  refine eq_of_rank ?_ ?_
  · rw [isNegative_opposite, isNegative_opposite, Bool.not_not]
  · rw [toNat_rank_opposite, toNat_rank_opposite]

theorem isFinite_opposite : n.opposite.IsFinite ↔ n.IsFinite := by
  rw [isFinite_iff, isFinite_iff, toNat_rank_opposite]

theorem isZero_opposite (n : Number) : n.opposite.isZero = n.isZero := by
  rw [Bool.eq_iff_iff, isZero_eq_true, isZero_eq_true, toNat_rank_opposite]

theorem value_opposite (n : Number) : n.opposite.value = -n.value := by
  have hunits : n.opposite.units = -n.units := by
    rw [units, units, isNegative_opposite, toNat_rank_opposite]
    cases n.isNegative <;> simp
  rw [value_eq_units, value_eq_units, hunits, Int.cast_neg, neg_div]

theorem abs_value_opposite_sub (n : Number) (x : ℚ) :
    |n.opposite.value - x| = |n.value - -x| := by
  rw [value_opposite, ← abs_neg]
  congr 1
  ring

theorem IsNearest.opposite {x : ℚ} (h : IsNearest x n) : IsNearest (-x) n.opposite := by
  refine ⟨isFinite_opposite.mpr h.finite, fun m hm => ?_, fun m hm hne heq => ?_⟩
  · have hle := h.nearest m.opposite (isFinite_opposite.mpr hm)
    rw [abs_value_opposite_sub] at hle ⊢
    rwa [neg_neg]
  · rw [abs_value_opposite_sub, neg_neg] at heq
    have heven := h.even m.opposite (isFinite_opposite.mpr hm) ?_ ?_
    · rwa [significand_mod_two, toNat_rank_opposite, ← significand_mod_two]
    · rw [value_opposite] at hne ⊢
      intro hopp
      exact hne (by rw [← hopp, neg_neg])
    · rw [abs_value_opposite_sub, heq]

/-! ## Rounding -/

/-- `x` is rounded to `n`. Beyond the largest finite number, the midpoint to the next power of two is the
first rational number that is not rounded to a finite number. -/
structure RoundsTo (x : ℚ) (n : Number) : Prop where
  nearest : IsNearest x n
  inRange : |x| < 2 ^ 1024 - 2 ^ 970
  sign : n.isNegative = true ↔ x < 0

/-- Zero alone is rounded to zero exactly. -/
theorem RoundsTo.ne_zero {x : ℚ} (h : RoundsTo x n) (hzero : n.isZero = false) : x ≠ 0 := by
  rintro rfl
  have hle := h.nearest.nearest ⟨0⟩ (isFinite_of_isZero rfl)
  have hvalue : n.units = 0 := by
    simp only [value_eq_zero (n := ⟨0⟩) rfl, sub_zero, abs_zero, abs_nonpos_iff] at hle
    rw [value_eq_units, div_eq_zero_iff, Int.cast_eq_zero] at hle
    exact hle.resolve_right (by positivity)
  have hmagnitude : magnitudeAt n.rank.toNat = 0 := by
    rw [units] at hvalue
    split_ifs at hvalue <;> omega
  rw [magnitudeAt_rank_eq_zero.mp hmagnitude] at hzero
  cases hzero

theorem RoundsTo.opposite {x : ℚ} (h : RoundsTo x n) (hx : x ≠ 0) : RoundsTo (-x) n.opposite where
  nearest := h.nearest.opposite
  inRange := by
    rw [abs_neg]
    exact h.inRange
  sign := by
    rw [isNegative_opposite, Bool.not_eq_true', ← Bool.not_eq_true, h.sign, not_lt, neg_lt_zero]
    exact ⟨fun hle => lt_of_le_of_ne hle hx.symm, le_of_lt⟩

/-! ## Neighbours -/

/-- The positive number of a rank. -/
def ofRank (r : Nat) : Number := ⟨UInt64.ofNat r⟩

theorem toNat_bits_ofRank {r : Nat} (h : r < 2 ^ 63) : (ofRank r).bits.toNat = r := by
  rw [ofRank, UInt64.toNat_ofNat']
  exact Nat.mod_eq_of_lt (by omega)

theorem toNat_rank_ofRank {r : Nat} (h : r < 2 ^ 63) : (ofRank r).rank.toNat = r := by
  rw [toNat_rank, toNat_bits_ofRank h, Nat.mod_eq_of_lt h]

theorem units_ofRank {r : Nat} (h : r < 2 ^ 63) : (ofRank r).units = magnitudeAt r := by
  have hpos : (ofRank r).isNegative = false := by
    rw [isNegative_eq_false, toNat_bits_ofRank h]
    exact h
  rw [units_of_nonneg hpos, toNat_rank_ofRank h]

/-- What is nearer to the larger one of two numbers lies above their midpoint. -/
theorem add_le_of_abs_sub_le {l c y : ℚ} (hlc : l < c) (h : |c - y| ≤ |l - y|) : l + c ≤ 2 * y := by
  have hsq := sq_le_sq.mpr h
  nlinarith

theorem le_add_of_abs_sub_le {c h y : ℚ} (hch : c < h) (hle : |c - y| ≤ |h - y|) :
    2 * y ≤ c + h := by
  have hsq := sq_le_sq.mpr hle
  nlinarith

theorem abs_sub_eq_of_add_eq {u c y : ℚ} (h : u + c = 2 * y) : |u - y| = |c - y| := by
  rw [abs_eq_abs]
  exact .inr (by linarith)

section Nearby

variable {x : ℚ} {q : Nat}

theorem IsNearest.abs_sub_le (h : IsNearest x n) (hpos : n.isNegative = false)
    (hq : q < 2047 * 2 ^ 52) :
    |(magnitudeAt n.rank.toNat : ℚ) - x * 2 ^ 1074| ≤ |(magnitudeAt q : ℚ) - x * 2 ^ 1074| := by
  have hlt : q < 2 ^ 63 := by omega
  have hfinite : (ofRank q).IsFinite := isFinite_iff.mpr (by rwa [toNat_rank_ofRank hlt])
  have hle := abs_value_sub_le_iff.mp (h.nearest (ofRank q) hfinite)
  rw [units_of_nonneg hpos, units_ofRank hlt] at hle
  exact_mod_cast hle

/-- Only the number of an even rank is nearest to a midpoint. -/
theorem IsNearest.rank_even (h : IsNearest x n) (hpos : n.isNegative = false)
    (hq : q < 2047 * 2 ^ 52) (hne : q ≠ n.rank.toNat)
    (hmidpoint : (magnitudeAt q + magnitudeAt n.rank.toNat : ℚ) = doubled x) :
    n.rank.toNat % 2 = 0 := by
  have hlt : q < 2 ^ 63 := by omega
  have hfinite : (ofRank q).IsFinite := isFinite_iff.mpr (by rwa [toNat_rank_ofRank hlt])
  rw [← significand_mod_two]
  refine h.even (ofRank q) hfinite ?_ ?_
  · rw [Ne, units_eq_of_value_eq_iff, units_of_nonneg hpos, units_ofRank hlt]
    intro heq
    exact hne (magnitudeAt_strictMono.injective (by exact_mod_cast heq))
  · rw [abs_value_sub, abs_value_sub, units_of_nonneg hpos, units_ofRank hlt]
    congr 1
    exact_mod_cast abs_sub_eq_of_add_eq hmidpoint

theorem magnitudeAt_range_end (e : Nat) :
    magnitudeAt ((e + 2) * 2 ^ 52 - 1) + magnitudeAt ((e + 2) * 2 ^ 52) = (2 ^ 54 - 1) * 2 ^ e := by
  have hlast : (e + 2) * 2 ^ 52 - 1 = (e + 1) * 2 ^ 52 + (2 ^ 52 - 1) := by omega
  have hnext : (e + 2) * 2 ^ 52 = (e + 1) * 2 ^ 52 + 2 ^ 52 := by omega
  rw [hlast, hnext, magnitudeAt_range (Nat.sub_le _ _), magnitudeAt_range le_rfl, ← Nat.add_mul]
  rfl

/-- The midpoint from the largest finite magnitude to the next power of two. -/
theorem magnitudeAt_largest : (magnitudeAt (2047 * 2 ^ 52 - 1) + magnitudeAt (2047 * 2 ^ 52) : ℚ) =
    doubled (2 ^ 1024 - 2 ^ 970) := by
  have hend := congrArg (Nat.cast : ℕ → ℚ) (magnitudeAt_range_end 2045)
  have hpow : (2 : ℚ) ^ 2045 = 2 ^ 970 * (2 * 2 ^ 1074) := by rw [← pow_succ', ← pow_add]
  have hbig : (2 : ℚ) ^ 1024 = 2 ^ 54 * 2 ^ 970 := by rw [← pow_add]
  rw [Nat.cast_add, Nat.cast_mul, Nat.cast_pow _ 2045, Nat.cast_ofNat, hpow] at hend
  refine hend.trans ?_
  rw [doubled, hbig]
  generalize (2 : ℚ) ^ 970 = u
  generalize (2 : ℚ) ^ 1074 = w
  norm_num
  ring

theorem doubled_lt_doubled {y : ℚ} : doubled x < doubled y ↔ x < y := by
  rw [doubled, doubled, mul_lt_mul_iff_right₀ two_pos, mul_lt_mul_iff_left₀ (by positivity)]

/-- What is rounded to a positive number lies between the midpoints around it: one of the two magnitudes
would be nearer otherwise, or, at the upper end, it would be out of range. -/
theorem RoundsTo.nearby (h : RoundsTo x n) (hpos : n.isNegative = false) :
    Nearby n.rank.toNat (doubled x) := by
  have hfinite := isFinite_iff.mp h.nearest.finite
  have hhigh : doubled x ≤ magnitudeAt n.rank.toNat + magnitudeAt (n.rank.toNat + 1) ∧
      (n.rank.toNat % 2 = 1 →
        doubled x ≠ magnitudeAt n.rank.toNat + magnitudeAt (n.rank.toNat + 1)) := by
    by_cases hnext : n.rank.toNat + 1 < 2047 * 2 ^ 52
    · refine ⟨le_add_of_abs_sub_le (magnitudeAt_lt (Nat.lt_succ_self _))
        (h.nearest.abs_sub_le hpos hnext), fun hodd heq => ?_⟩
      have heven := h.nearest.rank_even hpos hnext (Nat.succ_ne_self _) (by rw [heq, add_comm])
      omega
    · have hrank : n.rank.toNat = 2047 * 2 ^ 52 - 1 := by omega
      have hlt := doubled_lt_doubled.mpr ((le_abs_self x).trans_lt h.inRange)
      rw [← magnitudeAt_largest] at hlt
      rw [hrank]
      exact ⟨hlt.le, fun _ => hlt.ne⟩
  refine ⟨fun q hq => ?_, hhigh.1, fun q hq hodd heq => ?_, hhigh.2⟩
  · exact add_le_of_abs_sub_le (magnitudeAt_lt (by omega)) (h.nearest.abs_sub_le hpos (by omega))
  · have heven := h.nearest.rank_even hpos (by omega) (by omega) heq
    omega

/-- The ranges of two ranks do not overlap, and where they touch one of the ranks is odd. -/
theorem Nearby.rank_le {r : Nat} {y : ℚ} (h : Nearby r y) (h' : Nearby q y) : q ≤ r := by
  by_contra hlt
  obtain ⟨p, rfl⟩ : ∃ p, q = p + 1 := ⟨q - 1, by omega⟩
  have hhigh := h.le_high
  have hlow := h'.low_le p rfl
  by_cases hnext : p = r
  · subst hnext
    have heq := le_antisymm hhigh hlow
    rcases Nat.mod_two_eq_zero_or_one p with heven | hodd
    · exact h'.low_ne p rfl (by omega) heq.symm
    · exact h.ne_high hodd heq
  · have hless := magnitudeAt_lt (by omega : r < p)
    have hless' := magnitudeAt_lt (by omega : r + 1 < p + 1)
    linarith

theorem Nearby.lt_doubled {r : Nat} {y : ℚ} (h : Nearby r y) (hr : r < 2047 * 2 ^ 52) :
    y < doubled (2 ^ 1024 - 2 ^ 970) := by
  have hhigh := h.le_high
  rw [← magnitudeAt_largest]
  by_cases hlast : r = 2047 * 2 ^ 52 - 1
  · have hne := h.ne_high (by omega)
    rw [hlast] at hhigh hne
    exact lt_of_le_of_ne hhigh hne
  · have hless := magnitudeAt_lt (by omega : r < 2047 * 2 ^ 52 - 1)
    have hless' := magnitudeAt_lt (by omega : r + 1 < 2047 * 2 ^ 52)
    linarith

/-- No two numbers are what a rational number is rounded to. -/
theorem RoundsTo.eq (hm : RoundsTo x m) (hn : RoundsTo x n) : m = n := by
  have hsign : m.isNegative = n.isNegative := by rw [Bool.eq_iff_iff, hm.sign, hn.sign]
  refine eq_of_rank hsign ?_
  cases hneg : n.isNegative with
  | false =>
    have hmr := hm.nearby (hsign.trans hneg)
    have hnr := hn.nearby hneg
    exact Nat.le_antisymm (hnr.rank_le hmr) (hmr.rank_le hnr)
  | true =>
    have hx : x ≠ 0 := (hn.sign.mp hneg).ne
    have hmr := (hm.opposite hx).nearby (by rw [isNegative_opposite, hsign, hneg]; rfl)
    have hnr := (hn.opposite hx).nearby (by rw [isNegative_opposite, hneg]; rfl)
    rw [toNat_rank_opposite] at hmr hnr
    exact Nat.le_antisymm (hnr.rank_le hmr) (hmr.rank_le hnr)

end Nearby

/-! ## Captured quotients -/

section Captured

variable {x : ℚ} {a b : Nat}

/-- The magnitude of a number captures the magnitude of what is rounded to it. -/
theorem RoundsTo.captures (h : RoundsTo x n) (hzero : n.isZero = false) (hb : 0 < b)
    (hx : |x| = a / b) : n.Captures a b := by
  obtain ⟨r, hr⟩ := exists_rank_eq_succ hzero
  rw [captures_iff_nearby hr hb, ← hx, ← hr]
  cases hneg : n.isNegative with
  | false =>
    have hnonneg : 0 ≤ x := by
      rw [← not_lt, ← h.sign, hneg]
      exact Bool.false_ne_true
    rw [abs_of_nonneg hnonneg]
    exact h.nearby hneg
  | true =>
    have hless := h.sign.mp hneg
    have hopp := (h.opposite hless.ne).nearby (by rw [isNegative_opposite, hneg]; rfl)
    rwa [abs_of_neg hless, ← toNat_rank_opposite]

theorem Captures.roundsTo_of_nonneg (hfinite : n.IsFinite) (hzero : n.isZero = false) (hb : 0 < b)
    (hpos : n.isNegative = false) (h : n.Captures a b) : RoundsTo (a / b) n where
  nearest := h.isNearest hfinite hpos hzero hb
  inRange := by
    obtain ⟨r, hr⟩ := exists_rank_eq_succ hzero
    have hnearby := (captures_iff_nearby hr hb).mp h
    have hlt := hnearby.lt_doubled (hr ▸ isFinite_iff.mp hfinite)
    rw [abs_of_nonneg (by positivity)]
    exact doubled_lt_doubled.mp hlt
  sign := by
    have hnonneg : (0 : ℚ) ≤ a / b := by positivity
    rw [hpos]
    constructor
    · intro hneg
      cases hneg
    · intro hlt
      exact absurd hlt hnonneg.not_gt

/-- With the sign of a number, what its magnitude captures is rounded to it. -/
theorem Captures.roundsTo (hfinite : n.IsFinite) (hzero : n.isZero = false) (hb : 0 < b)
    (h : n.Captures a b) : RoundsTo (if n.isNegative then -(a / b) else a / b) n := by
  cases hneg : n.isNegative with
  | false => exact h.roundsTo_of_nonneg hfinite hzero hb hneg
  | true =>
    obtain ⟨r, hr⟩ := exists_rank_eq_succ hzero
    have hopp : n.opposite.Captures a b := by
      rwa [captures_iff_nearby (n.toNat_rank_opposite.trans hr) hb, ← captures_iff_nearby hr hb]
    have hrounds := hopp.roundsTo_of_nonneg (isFinite_opposite.mpr hfinite)
      (n.isZero_opposite.trans hzero) hb (by rw [isNegative_opposite, hneg]; rfl)
    have hne := hrounds.ne_zero (n.isZero_opposite.trans hzero)
    have hback := hrounds.opposite hne
    rwa [opposite_opposite] at hback

end Captured

end Egg.Number
