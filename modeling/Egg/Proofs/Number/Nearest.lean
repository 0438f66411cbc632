import Egg.Proofs.Number.Order
import Mathlib

/-!
# The nearest number

What a natural number is read as is the finite number nearest to it, and of two equally near ones
that with the even significand (`isNearest_ofNat`), unless it is too large. That is so from half a
step beyond the largest finite number on (`ofNat_eq_infinity_iff`). Both are said of exact values:
`value` is a rational number, and nothing is assumed of how rounding is done.
-/

namespace Egg.Number

variable {m n : Number}

/-- The finite number with the least distance from `x`, and with an even significand if another one
is as near. -/
structure IsNearest (x : ℚ) (n : Number) : Prop where
  finite : n.IsFinite
  nearest : ∀ m : Number, m.IsFinite → |n.value - x| ≤ |m.value - x|
  even : ∀ m : Number, m.IsFinite → m.value ≠ n.value → |m.value - x| = |n.value - x| →
    n.significand % 2 = 0

/-! ## Between two midpoints -/

/-- What lies between the midpoints from `c` to `l` and to `h` is nearer to `c` than to anything from
`l` down or from `h` up. -/
theorem abs_sub_le_of_midpoints {l c h u y : ℚ} (hlc : l < c) (hch : c < h) (hlow : l + c ≤ 2 * y)
    (hhigh : 2 * y ≤ c + h) (hu : u ≤ l ∨ u = c ∨ h ≤ u) : |c - y| ≤ |u - y| := by
  rcases hu with hu | rfl | hu
  · have hle : |c - y| ≤ -(u - y) := abs_le.mpr ⟨by linarith, by linarith⟩
    exact hle.trans (neg_le_abs _)
  · exact le_rfl
  · have hle : |c - y| ≤ u - y := abs_le.mpr ⟨by linarith, by linarith⟩
    exact hle.trans (le_abs_self _)

/-- Only at a midpoint is something else as near. -/
theorem eq_midpoint_of_abs_sub_eq {l c h u y : ℚ} (hlc : l < c) (hch : c < h)
    (hlow : l + c ≤ 2 * y) (hhigh : 2 * y ≤ c + h) (hu : u ≤ l ∨ h ≤ u) (heq : |u - y| = |c - y|) :
    l + c = 2 * y ∨ 2 * y = c + h := by
  rcases abs_eq_abs.mp heq with hsame | hopposite
  · rcases hu with hu | hu <;> linarith
  · rcases hu with hu | hu
    · exact .inl (by linarith)
    · exact .inr (by linarith)

/-! ## Numbers and ranks -/

theorem units_of_nonneg (h : n.isNegative = false) : n.units = magnitudeAt n.rank.toNat := by
  rw [units, h]
  rfl

/-- No number lies between the magnitudes of two ranks that follow each other. -/
theorem units_le_or_le (m : Number) (r : Nat) :
    m.units ≤ magnitudeAt r ∨ (magnitudeAt (r + 1) : ℤ) ≤ m.units := by
  rw [units]
  split_ifs
  · left
    omega
  · by_cases hle : m.rank.toNat ≤ r
    · left
      exact_mod_cast magnitudeAt_strictMono.monotone hle
    · right
      exact_mod_cast magnitudeAt_strictMono.monotone (Nat.lt_of_not_le hle)

theorem units_cases (m : Number) (r : Nat) : (m.units : ℚ) ≤ magnitudeAt r ∨
    (m.units : ℚ) = magnitudeAt (r + 1) ∨ (magnitudeAt (r + 2) : ℚ) ≤ m.units := by
  rcases m.units_le_or_le r with hle | hle
  · exact .inl (by exact_mod_cast hle)
  · rcases m.units_le_or_le (r + 1) with hle' | hle'
    · exact .inr (.inl (by exact_mod_cast le_antisymm hle' hle))
    · exact .inr (.inr (by exact_mod_cast hle'))

theorem magnitudeAt_lt {q r : Nat} (h : q < r) : (magnitudeAt q : ℚ) < magnitudeAt r := by
  exact_mod_cast magnitudeAt_strictMono h

/-- Distances can be measured in units of `2 ^ -1074`. -/
theorem abs_value_sub (n : Number) (x : ℚ) :
    |n.value - x| = |(n.units : ℚ) - x * 2 ^ 1074| / 2 ^ 1074 := by
  rw [value_eq_units]
  have hpos : (0 : ℚ) < 2 ^ 1074 := by positivity
  generalize (2 : ℚ) ^ 1074 = unit at hpos ⊢
  have hsub : (n.units : ℚ) / unit - x = (n.units - x * unit) / unit := by
    rw [sub_div, mul_div_cancel_right₀ x hpos.ne']
  rw [hsub, abs_div, abs_of_pos hpos]

theorem abs_value_sub_le_iff {x : ℚ} : |n.value - x| ≤ |m.value - x| ↔
    |(n.units : ℚ) - x * 2 ^ 1074| ≤ |(m.units : ℚ) - x * 2 ^ 1074| := by
  rw [abs_value_sub, abs_value_sub]
  exact div_le_div_iff_of_pos_right (by positivity)

theorem units_eq_of_value_eq_iff : m.value = n.value ↔ (m.units : ℚ) = n.units := by
  rw [value_eq_units, value_eq_units]
  exact div_left_inj' (by positivity)

/-- Twice a rational number, in units of `2 ^ -1074`. -/
def doubled (x : ℚ) : ℚ := 2 * (x * 2 ^ 1074)

/-- `y / 2` lies between the midpoints from the magnitude of a rank to those around it. The midpoints
themselves belong to an even rank. -/
structure Nearby (r : Nat) (y : ℚ) : Prop where
  low_le : ∀ q, r = q + 1 → (magnitudeAt q + magnitudeAt r : ℚ) ≤ y
  le_high : y ≤ magnitudeAt r + magnitudeAt (r + 1)
  low_ne : ∀ q, r = q + 1 → r % 2 = 1 → (magnitudeAt q + magnitudeAt r : ℚ) ≠ y
  ne_high : r % 2 = 1 → y ≠ magnitudeAt r + magnitudeAt (r + 1)

/-- A positive number is nearest to what lies between the midpoints around it. -/
theorem IsNearest.of_nearby {x : ℚ} {r : Nat} (hfinite : n.IsFinite) (hpos : n.isNegative = false)
    (hr : n.rank.toNat = r + 1) (h : Nearby (r + 1) (doubled x)) : IsNearest x n := by
  have hlow := h.low_le r rfl
  have hhigh := h.le_high
  have hunits : (n.units : ℚ) = magnitudeAt (r + 1) := by
    rw [units_of_nonneg hpos, hr]
    rfl
  have hlc : (magnitudeAt r : ℚ) < magnitudeAt (r + 1) := magnitudeAt_lt (Nat.lt_succ_self r)
  have hch : (magnitudeAt (r + 1) : ℚ) < magnitudeAt (r + 2) := magnitudeAt_lt (Nat.lt_succ_self _)
  refine ⟨hfinite, fun m _ => ?_, fun m _ hne heq => ?_⟩
  · rw [abs_value_sub_le_iff, hunits]
    exact abs_sub_le_of_midpoints hlc hch hlow hhigh (m.units_cases r)
  · rw [ne_eq, units_eq_of_value_eq_iff, hunits] at hne
    have hdistance := le_antisymm (abs_value_sub_le_iff.mp heq.le) (abs_value_sub_le_iff.mp heq.ge)
    rw [hunits] at hdistance
    have hother : (m.units : ℚ) ≤ magnitudeAt r ∨ (magnitudeAt (r + 2) : ℚ) ≤ m.units := by
      rcases m.units_cases r with hle | heq | hle
      · exact .inl hle
      · exact absurd heq hne
      · exact .inr hle
    rw [significand_mod_two, hr]
    by_contra hodd
    -- Something else is as near only at a midpoint, and an odd rank has none.
    rcases eq_midpoint_of_abs_sub_eq hlc hch hlow hhigh hother hdistance with hmid | hmid
    · exact h.low_ne r rfl (by omega) hmid
    · exact h.ne_high (by omega) hmid

/-- A magnitude captures the quotients between the midpoints around it. -/
theorem captures_iff_nearby {a b r : Nat} (hr : n.rank.toNat = r + 1) (hb : 0 < b) :
    n.Captures a b ↔ Nearby (r + 1) (doubled (a / b)) := by
  have hb' : (0 : ℚ) < b := by exact_mod_cast hb
  have hscale : doubled (a / b) = (2 * a * 2 ^ 1074 : ℕ) / b := by
    rw [doubled, Nat.cast_mul, Nat.cast_mul, Nat.cast_pow, Nat.cast_ofNat]
    generalize (2 : ℚ) ^ 1074 = unit
    ring
  rw [captures_iff hr, hscale]
  generalize 2 * a * 2 ^ 1074 = z
  constructor
  · rintro ⟨hlow, hhigh, hstrict⟩
    refine ⟨?_, ?_, ?_, fun hodd => ne_of_lt ?_⟩
    · rintro q ⟨⟩
      rw [le_div_iff₀ hb']
      exact_mod_cast hlow
    · rw [div_le_iff₀ hb']
      exact_mod_cast hhigh
    · rintro q ⟨⟩ hodd
      refine ne_of_lt ?_
      rw [lt_div_iff₀ hb']
      exact_mod_cast (hstrict hodd).1
    · rw [div_lt_iff₀ hb']
      exact_mod_cast (hstrict hodd).2
  · intro h
    have hlow := h.low_le r rfl
    have hhigh := h.le_high
    refine ⟨?_, ?_, fun hodd => ⟨?_, ?_⟩⟩
    · rw [le_div_iff₀ hb'] at hlow
      exact_mod_cast hlow
    · rw [div_le_iff₀ hb'] at hhigh
      exact_mod_cast hhigh
    · have hlt := lt_of_le_of_ne hlow (h.low_ne r rfl hodd)
      rw [lt_div_iff₀ hb'] at hlt
      exact_mod_cast hlt
    · have hlt := lt_of_le_of_ne hhigh (h.ne_high hodd)
      rw [div_lt_iff₀ hb'] at hlt
      exact_mod_cast hlt

/-- A positive number is nearest to each quotient that it captures. -/
theorem Captures.isNearest {a b : Nat} (hfinite : n.IsFinite) (hpos : n.isNegative = false)
    (hzero : n.isZero = false) (hb : 0 < b) (h : n.Captures a b) : IsNearest ((a : ℚ) / b) n := by
  obtain ⟨r, hr⟩ := exists_rank_eq_succ hzero
  exact .of_nearby hfinite hpos hr ((captures_iff_nearby hr hb).mp h)

/-! ## What natural numbers are read as -/

/-- The quotient is at most one half away from what it is rounded to, and less than that if this is
odd. -/
theorem between_roundQuotient {a b : Nat} (hb : 0 < b) :
    Between (roundQuotient a b % 2 = 1) (2 * (roundQuotient a b * b)) (2 * a + b)
      (2 * (roundQuotient a b * b) + 2 * b) := by
  have hdiv := Nat.div_add_mod' a b
  have hmod := Nat.mod_lt a hb
  rw [roundQuotient]
  generalize a / b = q at *
  generalize a % b = r at *
  split_ifs with hless hmore
  · exact ⟨by omega, by omega, fun _ => by omega⟩
  · rw [Nat.add_mul]
    exact ⟨by omega, by omega, fun _ => by omega⟩
  · -- In a tie, an odd quotient is rounded up.
    rcases Nat.mod_two_eq_zero_or_one q with heven | hodd
    · rw [heven, Nat.add_zero]
      exact ⟨by omega, by omega, fun hodd => by omega⟩
    · rw [hodd, Nat.add_mul]
      exact ⟨by omega, by omega, fun hodd' => by omega⟩

/-- An even number is reached from half a step below it on. -/
theorem le_roundQuotient_iff {a b m : Nat} (hb : 0 < b) (hm : m % 2 = 0) :
    m ≤ roundQuotient a b ↔ 2 * (m * b) ≤ 2 * a + b := by
  obtain ⟨hlow, hhigh, hstrict⟩ := between_roundQuotient (a := a) hb
  generalize roundQuotient a b = q at *
  constructor
  · intro hle
    have hmul : m * b ≤ q * b := Nat.mul_le_mul_right b hle
    omega
  · intro hle
    by_contra hlt
    have hmul : (q + 1) * b ≤ m * b := Nat.mul_le_mul_right b (by omega)
    by_cases hnext : m = q + 1
    · have hopen := hstrict (by omega)
      rw [Nat.add_mul] at hmul
      omega
    · have hmul' : (q + 2) * b ≤ m * b := Nat.mul_le_mul_right b (by omega)
      rw [Nat.add_mul] at hmul'
      omega

/-- The magnitudes of a range of exponents, and the first one of the next range. -/
theorem magnitudeAt_range {e f : Nat} (hf : f ≤ 2 ^ 52) :
    magnitudeAt ((e + 1) * 2 ^ 52 + f) = (2 ^ 52 + f) * 2 ^ e := by
  unfold magnitudeAt stepAt
  rw [if_neg (by omega)]
  by_cases hlast : f = 2 ^ 52
  · have hmod : ((e + 1) * 2 ^ 52 + f) % 2 ^ 52 = 0 := by omega
    have hdiv : ((e + 1) * 2 ^ 52 + f) / 2 ^ 52 - 1 = e + 1 := by omega
    rw [hmod, hdiv, hlast, Nat.pow_succ]
    omega
  · have hmod : ((e + 1) * 2 ^ 52 + f) % 2 ^ 52 = f := by omega
    have hdiv : ((e + 1) * 2 ^ 52 + f) / 2 ^ 52 - 1 = e := by omega
    rw [hmod, hdiv]

/-- With `k = ⌊log₂ a⌋`, the significand that `a` is rounded to has its place between `2 ^ 52` and
`2 ^ 53`, both included. -/
theorem exists_roundQuotient_eq {a : Nat} (ha : a ≠ 0) :
    ∃ f ≤ 2 ^ 52, roundQuotient (a * 2 ^ 52) (2 ^ a.log2) = 2 ^ 52 + f := by
  have hle := Nat.log2_self_le ha
  have hlt : a < 2 ^ (a.log2 + 1) := Nat.lt_log2_self
  rw [Nat.pow_succ] at hlt
  have hpos := Nat.two_pow_pos a.log2
  generalize 2 ^ a.log2 = p at *
  have hmin : 2 ^ 52 ≤ roundQuotient (a * 2 ^ 52) p :=
    (le_roundQuotient_iff hpos (by decide)).mpr (by omega)
  have hmax : roundQuotient (a * 2 ^ 52) p ≤ 2 ^ 53 := by
    have hlow := (between_roundQuotient (a := a * 2 ^ 52) hpos).low_le
    by_contra hbig
    have hmul : (2 ^ 53 + 1) * p ≤ roundQuotient (a * 2 ^ 52) p * p :=
      Nat.mul_le_mul_right p (by omega)
    omega
  exact ⟨roundQuotient (a * 2 ^ 52) p - 2 ^ 52, by omega, by omega⟩

/-- The rank that a number is read as, if it is not too large. -/
theorem exists_rank_ofNat {a : Nat} (ha : a ≠ 0) (hfinite : (ofNat a).IsFinite) :
    ∃ f ≤ 2 ^ 52, roundQuotient (a * 2 ^ 52) (2 ^ a.log2) = 2 ^ 52 + f ∧
      (ofNat a).rank.toNat = (a.log2 + 1022 + 1) * 2 ^ 52 + f := by
  obtain ⟨f, hf, hround⟩ := exists_roundQuotient_eq ha
  have hrank := toNat_rank_ofNat a
  have hmax := isFinite_iff.mp hfinite
  rw [nearestRank_of_log2 ha rfl, hround] at hrank
  exact ⟨f, hf, hround, by omega⟩

/-- Rounding goes the same way in smaller units. -/
theorem Between.inUnits {a k q : Nat} (j : Nat) (h : Between (q % 2 = 1) (2 * (q * 2 ^ k))
      (2 * (a * 2 ^ 52) + 2 ^ k) (2 * (q * 2 ^ k) + 2 * 2 ^ k)) :
    Between (q % 2 = 1) (2 * (q * 2 ^ (k + j))) (2 * a * 2 ^ (52 + j) + 2 ^ (k + j))
      (2 * (q * 2 ^ (k + j)) + 2 * 2 ^ (k + j)) := by
  rw [Nat.pow_add 2 k, Nat.pow_add 2 52]
  exact h.scale (Nat.two_pow_pos j) Nat.one_pos (by ring) (by ring) (by ring)

/-- A number that is not too large is captured by what it is read as. -/
theorem captures_ofNat {a : Nat} (ha : a ≠ 0) (hfinite : (ofNat a).IsFinite) :
    (ofNat a).Captures a 1 := by
  obtain ⟨f, hf, hround, hrank⟩ := exists_rank_ofNat ha hfinite
  have hrounded := between_roundQuotient (a := a * 2 ^ 52) (Nat.two_pow_pos a.log2)
  have hle := Nat.log2_self_le ha
  rw [hround] at hrounded
  generalize a.log2 = k at *
  have hrange := magnitudeAt_range (e := k + 1022) hf
  obtain ⟨r, hr⟩ : ∃ r, (k + 1022 + 1) * 2 ^ 52 + f = r + 1 :=
    ⟨(k + 1022 + 1) * 2 ^ 52 + f - 1, by omega⟩
  have hunits := hrounded.inUnits 1022
  rw [hr] at hrange hrank
  rw [← hrange] at hunits
  rw [captures_iff hrank, Nat.mul_one, Nat.mul_one]
  have habove : magnitudeAt (r + 1) + 2 ^ (k + 1022) ≤ magnitudeAt (r + 2) := by
    have hpow : 2 ^ (k + 1022) ≤ stepAt (r + 1) := Nat.pow_le_pow_right (by decide) (by omega)
    rw [magnitudeAt_succ (r + 1)]
    omega
  by_cases hfirst : f = 0
  · -- The number is not below the first magnitude of the range, so what lies below does not matter.
    have hbelow : magnitudeAt r ≤ magnitudeAt (r + 1) :=
      magnitudeAt_strictMono.monotone (Nat.le_succ r)
    have hreached : magnitudeAt (r + 1) ≤ a * 2 ^ 1074 := by
      have hpow : 2 ^ 52 * 2 ^ (k + 1022) = 2 ^ k * 2 ^ 1074 := by
        have hsum : 52 + (k + 1022) = k + 1074 := by omega
        rw [← Nat.pow_add, ← Nat.pow_add, hsum]
      rw [hrange, hfirst, Nat.add_zero, hpow]
      exact Nat.mul_le_mul_right _ hle
    obtain ⟨-, hhigh, -⟩ := hunits
    rw [Nat.mul_assoc] at hhigh ⊢
    generalize 2 ^ (k + 1022) = w at *
    generalize a * 2 ^ 1074 = z at *
    exact ⟨by omega, by omega, fun hodd => by omega⟩
  · have hbelow : magnitudeAt r + 2 ^ (k + 1022) = magnitudeAt (r + 1) := by
      have hexp : r / 2 ^ 52 - 1 = k + 1022 := by omega
      rw [magnitudeAt_succ, stepAt, hexp]
    obtain ⟨hlow, hhigh, hstrict⟩ := hunits
    generalize 2 ^ (k + 1022) = w at *
    generalize 2 * a * 2 ^ 1074 = z at *
    exact ⟨by omega, by omega, fun hodd => by omega⟩

/-- What is not too large is read as the number nearest to it. -/
theorem isNearest_ofNat {a : Nat} (hfinite : (ofNat a).IsFinite) : IsNearest (a : ℚ) (ofNat a) := by
  by_cases ha : a = 0
  · subst ha
    have hvalue : (ofNat 0).value = 0 := value_eq_zero rfl
    refine ⟨hfinite, fun m _ => ?_, fun m _ _ _ => rfl⟩
    rw [hvalue, Nat.cast_zero, sub_zero, abs_zero]
    exact abs_nonneg _
  · have hcaptures := captures_ofNat ha hfinite
    have hzero : (ofNat a).isZero = false := by
      rw [← Bool.not_eq_true, isZero_eq_true]
      obtain ⟨f, -, -, hrank⟩ := exists_rank_ofNat ha hfinite
      omega
    have hnearest := hcaptures.isNearest hfinite (isNegative_ofNat a) hzero Nat.one_pos
    rwa [Nat.cast_one, div_one] at hnearest

theorem ofNat_eq_infinity_iff_nearestRank {a : Nat} :
    ofNat a = infinity ↔ nearestRank a = 2047 * 2 ^ 52 := by
  constructor
  · intro h
    rw [← toNat_rank_ofNat, h]
    rfl
  · intro h
    exact eq_ofNat_of_rank (n := infinity) rfl h

/-- What is too large: the midpoint from the largest finite number to the next power of two counts,
since the significand of the latter is even. -/
theorem ofNat_eq_infinity_iff {a : Nat} : ofNat a = infinity ↔ 2 ^ 1024 - 2 ^ 970 ≤ a := by
  obtain ⟨u, hu⟩ : ∃ u, u = 2 ^ 970 := ⟨_, rfl⟩
  have hpos : 0 < u := by
    rw [hu]
    positivity
  have hbig : 2 ^ 1024 = 2 ^ 54 * u := by rw [hu, ← Nat.pow_add]
  have hhalf : 2 ^ 1023 = 2 ^ 53 * u := by rw [hu, ← Nat.pow_add]
  rw [ofNat_eq_infinity_iff_nearestRank, ← hu, hbig]
  by_cases ha : a = 0
  · rw [nearestRank, if_pos ha]
    omega
  obtain ⟨f, hf, hround⟩ := exists_roundQuotient_eq ha
  have hle := Nat.log2_self_le ha
  have hlt : a < 2 ^ (a.log2 + 1) := Nat.lt_log2_self
  have heven : 2 ^ 53 ≤ 2 ^ 52 + f ↔ 2 * (2 ^ 53 * 2 ^ a.log2) ≤ 2 * (a * 2 ^ 52) + 2 ^ a.log2 := by
    rw [← hround]
    exact le_roundQuotient_iff (Nat.two_pow_pos _) (by decide)
  rw [nearestRank_of_log2 ha rfl, hround]
  generalize a.log2 = k at *
  obtain hsmall | hk | hlarge : k ≤ 1022 ∨ k = 1023 ∨ 1024 ≤ k := by omega
  · have hexp : k + 1 ≤ 1023 := by omega
    have hpow := (pow_le_pow_right₀ one_le_two hexp).trans_eq hhalf
    omega
  · -- Only in the last range of exponents does it depend on the significand.
    have hmidpoint : 2 ^ 53 ≤ 2 ^ 52 + f ↔
        2 * (2 ^ 53 * (2 ^ 53 * u)) ≤ 2 * (a * 2 ^ 52) + 2 ^ 53 * u := by
      rw [← hhalf, ← hk]
      exact heven
    omega
  · have hpow := hbig.symm.trans_le (pow_le_pow_right₀ one_le_two hlarge)
    omega

/-! ## Numerals -/

/-- The natural number that a run of decimal digits denotes: each digit counts ten times as much as
the one behind it. -/
def numeralValue (digits : List Char) : ℕ :=
  Nat.ofDigits 10 (digits.reverse.map fun c => c.toNat - '0'.toNat)

/-- The digits can also be gone through from the left. -/
theorem ofDigitChars_eq_numeralValue (digits : List Char) :
    Nat.ofDigitChars 10 digits 0 = numeralValue digits := by
  induction digits using List.reverseRecOn with
  | nil => rfl
  | append_singleton digits c ih =>
    rw [Nat.ofDigitChars_append, ih, numeralValue, numeralValue, List.reverse_append,
      List.reverse_singleton, List.singleton_append, List.map_cons, Nat.ofDigits_cons, Nat.add_comm]
    rfl

theorem ofDigits_eq_ofNat (digits : List Char) : ofDigits digits = ofNat (numeralValue digits) := by
  rw [ofDigits, ofDigitChars_eq_numeralValue]

end Egg.Number
