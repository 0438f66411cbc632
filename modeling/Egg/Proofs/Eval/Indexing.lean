import Egg.Proofs.Eval.Forms
import Egg.Proofs.Number.Order
import Mathlib

/-!
# Arrays and their indices

Indices are numbers like all others, so an index may have a fraction or a sign, and may be no number
at all. An index stands for an item if it is equal to the number of items before it
(`Number.EqualsNat`), and for none otherwise. Up to `2 ^ 53` items, this is also what the comparisons
of the language say, between the index, zero and the length of the array
(`Number.exists_equalsNat_iff`).
-/

namespace Egg

namespace Number

variable {n : Number} {k : Nat}

/-! ## Numbers that are natural numbers -/

/-- The number is equal to the natural number. Negative zero equals `0`. -/
def EqualsNat (n : Number) (k : Nat) : Prop := n.IsFinite ∧ n.value = k

/-- The number is finite and has no fraction. -/
def IsIntegral (n : Number) : Prop := n.IsFinite ∧ ∃ z : ℤ, n.value = z

/-- On natural numbers, for numbers that are not below zero. -/
theorem value_eq_natCast_iff_of_nonneg (h : n.isNegative = false ∨ n.isZero = true) :
    n.value = k ↔ n.significand * 2 ^ n.exponent.toNat = k * 2 ^ (-n.exponent).toNat := by
  rcases h with hpos | hzero
  · exact value_eq_natCast_iff hpos
  · rw [value_eq_zero hzero, significand_eq_zero hzero, Nat.zero_mul]
    have hpow : 2 ^ (-n.exponent).toNat ≠ 0 := by positivity
    rw [eq_comm, Nat.cast_eq_zero, eq_comm (a := 0), Nat.mul_eq_zero, or_iff_left hpow]

/-- A number that is not below zero is turned into the natural number that it is equal to, if there is
one. -/
theorem toNat?_of_nonneg (hfinite : n.IsFinite) (h : n.isNegative = false ∨ n.isZero = true) :
    n.toNat? = some k ↔ n.significand * 2 ^ n.exponent.toNat = k * 2 ^ (-n.exponent).toNat := by
  have hcond : (n.isNaN || n.isInfinite || (n.isNegative && !n.isZero)) = false := by
    rw [hfinite.1, hfinite.2]
    rcases h with hpos | hzero
    · rw [hpos]
      rfl
    · rw [hzero]
      simp
  rw [toNat?, hcond]
  cases n.exponent with
  | ofNat q =>
    show some (n.significand * 2 ^ q) = some k ↔ n.significand * 2 ^ q = k * 2 ^ (-(q : ℤ)).toNat
    rw [Option.some_inj, show (-(q : ℤ)).toNat = 0 by omega, Nat.pow_zero, Nat.mul_one]
  | negSucc q =>
    show (if n.significand % 2 ^ (q + 1) = 0 then some (n.significand / 2 ^ (q + 1)) else none) =
      some k ↔ n.significand * 2 ^ 0 = k * 2 ^ (q + 1)
    have hpos : 0 < 2 ^ (q + 1) := Nat.two_pow_pos _
    rw [Nat.pow_zero, Nat.mul_one]
    split_ifs with hmod
    · rw [Option.some_inj, Nat.div_eq_iff_eq_mul_left hpos (Nat.dvd_of_mod_eq_zero hmod)]
    · refine iff_of_false nofun fun heq => hmod ?_
      rw [heq, Nat.mul_mod_left]

theorem toNat?_eq_some_iff : n.toNat? = some k ↔ n.EqualsNat k := by
  by_cases hfinite : n.IsFinite
  · by_cases hsign : n.isNegative = false ∨ n.isZero = true
    · rw [toNat?_of_nonneg hfinite hsign, ← value_eq_natCast_iff_of_nonneg hsign, EqualsNat,
        and_iff_right hfinite]
    · rw [not_or, Bool.not_eq_false, Bool.not_eq_true] at hsign
      refine iff_of_false ?_ fun h => ?_
      · simp [toNat?, hsign.1, hsign.2]
      · have hpos := isNegative_eq_false_of_value hsign.2 (h.2 ▸ Nat.cast_nonneg k)
        rw [hsign.1] at hpos
        cases hpos
  · refine iff_of_false ?_ fun h => hfinite h.1
    rcases not_isFinite_iff.mp hfinite with hnan | hinf
    · simp [toNat?, hnan]
    · simp [toNat?, hinf]

/-- Below `2 ^ 53`, a natural number is read without rounding. -/
theorem equalsNat_ofNat (hk : k < 2 ^ 53) : (ofNat k).EqualsNat k := by
  by_cases hzero : k = 0
  · subst hzero
    exact ⟨isFinite_of_isZero rfl, value_eq_zero rfl⟩
  · have hlog : k.log2 ≤ 52 := Nat.le_of_lt_succ ((Nat.log2_lt hzero).mpr hk)
    refine ⟨isFinite_iff.mpr ?_, value_ofNat_of_log2_le hzero hlog⟩
    have hexp := (fields_ofNat hzero hlog).1
    have hfraction := (ofNat k).fraction_lt
    rw [rank_eq, hexp]
    omega

/-- A number is one of the natural numbers below a bound exactly if it has no fraction and compares as
not below zero and as below the bound. -/
theorem exists_equalsNat_iff {bound : Nat} (hbound : bound < 2 ^ 53) :
    (∃ k < bound, n.EqualsNat k) ↔
      n.IsIntegral ∧ n.less (ofNat 0) = false ∧ n.less (ofNat bound) = true := by
  have hless : ∀ {k : Nat} {z : ℤ}, k < 2 ^ 53 → n.IsFinite → n.value = z →
      (n.less (ofNat k) = true ↔ z < k) := by
    intro k z hk hfinite hvalue
    have hnat := equalsNat_ofNat hk
    rw [less_iff hfinite hnat.1, hvalue, hnat.2]
    exact_mod_cast Iff.rfl
  constructor
  · rintro ⟨k, hk, hfinite, hvalue⟩
    have hint : n.value = (k : ℤ) := by rw [hvalue, Int.cast_natCast]
    refine ⟨⟨hfinite, k, hint⟩, ?_, (hless hbound hfinite hint).mpr (by omega)⟩
    rw [← Bool.not_eq_true, hless (by decide) hfinite hint]
    omega
  · rintro ⟨⟨hfinite, z, hint⟩, hnonneg, hlt⟩
    rw [← Bool.not_eq_true, hless (by decide) hfinite hint] at hnonneg
    rw [hless hbound hfinite hint] at hlt
    obtain ⟨k, rfl⟩ := Int.eq_ofNat_of_zero_le (by omega : 0 ≤ z)
    exact ⟨k, by omega, hfinite, by rw [hint, Int.cast_natCast]⟩

end Number

/-! ## The natives on arrays -/

namespace Builtin

variable {tag : Tag} {items : List Value} {i : Number} {s : State}

/-- An index stands for the item with as many items before it. -/
theorem call_element_eq_ok_iff {v : Value} :
    call .element [.array tag items, .number i] s = (.ok v, s) ↔
      ∃ k, ∃ hk : k < items.length, i.EqualsNat k ∧ v = items.get ⟨k, hk⟩ := by
  constructor
  · intro h
    have hnative := native_call .element [.array tag items, .number i] s
    rw [h] at hnative
    cases hnative with
    | @element _ _ _ k _ _ hn hv =>
      obtain ⟨hk, hget⟩ := List.getElem?_eq_some_iff.mp hv
      exact ⟨k, hk, Number.toNat?_eq_some_iff.mp hn, hget.symm⟩
  · rintro ⟨k, hk, hi, rfl⟩
    exact call_of_native (.element (Number.toNat?_eq_some_iff.mpr hi) (List.getElem?_eq_getElem hk))

theorem call_element_of_not_exists (h : ¬ ∃ k < items.length, i.EqualsNat k) :
    call .element [.array tag items, .number i] s =
      (.error (.indexOutOfBounds (String.ofList i.display) items.length), s) := by
  refine call_of_native (.elementBounds fun k hk => ?_)
  by_contra hlt
  exact h ⟨k, Nat.lt_of_not_le hlt, Number.toNat?_eq_some_iff.mp hk⟩

/-- Let an array have fewer than `2 ^ 53` items. Its length is their number, and an index stands for an
item exactly if it is equal to the number of items before that one. Every other index, whatever it is,
is out of bounds, and the error tells the index and the length. So an index is good exactly if it has no
fraction, is not below zero and is below the length, as the language compares numbers. What is not an
array has no items at any index, and what is not a number is no index into any array. -/
theorem array_length_element_agree (hlength : items.length < 2 ^ 53) (s : State) :
    call .array items s = (.ok (.array s.nextTag items), { s with nextTag := s.nextTag + 1 }) ∧
      (∃ n : Number, n.EqualsNat items.length ∧ n.isNegative = false ∧
        ∀ tag t, call .length [.array tag items] t = (.ok (.number n), t)) ∧
      (∀ tag (i : Number) t,
        (∀ v, call .element [.array tag items, .number i] t = (.ok v, t) ↔
          ∃ k, ∃ hk : k < items.length, i.EqualsNat k ∧ v = items.get ⟨k, hk⟩) ∧
        ((¬ ∃ k < items.length, i.EqualsNat k) → call .element [.array tag items, .number i] t =
          (.error (.indexOutOfBounds (String.ofList i.display) items.length), t))) ∧
      (∀ i : Number, (∃ k < items.length, i.EqualsNat k) ↔
        i.IsIntegral ∧ i.less (.ofNat 0) = false ∧ i.less (.ofNat items.length) = true) ∧
      (∀ v index t, (∀ tag items, v ≠ .array tag items) →
        call .element [v, index] t = (.error (.typeMismatch .element .array v.describe), t)) ∧
      ∀ tag items index t, (∀ n, index ≠ .number n) → call .element [.array tag items, index] t =
        (.error (.typeMismatch .element .number index.describe), t) := by
  refine ⟨rfl, ⟨.ofNat items.length, Number.equalsNat_ofNat hlength, Number.isNegative_ofNat _,
    fun _ _ => rfl⟩, fun tag i t => ⟨fun v => call_element_eq_ok_iff, call_element_of_not_exists⟩,
    fun i => Number.exists_equalsNat_iff hlength, fun v index t hv => ?_, fun tag items index t hi => ?_⟩
  · exact call_of_native (.elementOperand hv)
  · exact call_of_native (.elementIndex hi)

/-- Negative zero is the index of the first item, and what is not a number is the index of none. -/
theorem array_length_element_agree_unusual_indices :
    call .element [.array 0 [.text "a", .text "b"], .number ⟨Number.signBit⟩] (State.initial .silent) =
        (.ok (.text "a"), State.initial .silent) ∧
      call .element [.array 0 [.text "a", .text "b"], .number .notANumber] (State.initial .silent) =
        (.error (.indexOutOfBounds "NaN" 2), State.initial .silent) := by
  have hlength : ([.text "a", .text "b"] : List Value).length < 2 ^ 53 := by decide
  obtain ⟨-, -, helement, -⟩ := array_length_element_agree hlength (State.initial .silent)
  have hzero : Number.EqualsNat ⟨Number.signBit⟩ 0 :=
    ⟨Number.isFinite_of_isZero rfl, Number.value_eq_zero rfl⟩
  have hnone : ¬ ∃ k < 2, Number.notANumber.EqualsNat k := by
    rintro ⟨k, -, hfinite, -⟩
    cases hfinite.1
  exact ⟨((helement 0 _ _).1 _).mpr ⟨0, by decide, hzero, rfl⟩, (helement 0 _ _).2 hnone⟩

end Builtin

end Egg
