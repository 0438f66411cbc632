import Egg.Syntax.Cursor
import Egg.Proofs.Syntax.Scanning
import Egg.Proofs.Number.Reading
import Egg.Proofs.Number.Nearest
import Mathlib

/-!
# Numerals at the cursor

A cursor counts its position in bytes, and what lies ahead of it is an end of its source text, so a
move over some characters adds their bytes to the position (`Cursor.position_append`). For a number
the characters are digits, of one byte each, and the value is what `Number.Nearest` says of the
natural number they denote. Nothing bounds the length of a numeral: one whose value is beyond the
finite numbers is read as infinity (`Cursor.scanNumber_nearest`).
-/

namespace Egg.Syntax

/-! ## Bytes -/

theorem utf8Length_eq_sum (cs : List Char) : utf8Length cs = (cs.map Char.utf8Size).sum := by
  rw [utf8Length, List.sum_eq_foldl, List.foldl_map]

theorem utf8Length_append (cs ds : List Char) :
    utf8Length (cs ++ ds) = utf8Length cs + utf8Length ds := by
  simp only [utf8Length_eq_sum, List.map_append, List.sum_append]

/-- The digits lie in the first part of the code, whose characters take one byte. -/
theorem utf8Size_of_isDigit {c : Char} (h : c.isDigit = true) : c.utf8Size = 1 := by
  have hle : c.val ≤ 57 := by
    simp only [Char.isDigit, Bool.and_eq_true, decide_eq_true_eq] at h
    exact h.2
  rw [Char.utf8Size_eq_one_iff]
  exact UInt32.le_trans hle (by decide)

theorem utf8Length_of_isDigit {digits : List Char} (h : ∀ c ∈ digits, c.isDigit = true) :
    utf8Length digits = digits.length := by
  have hone : digits.map Char.utf8Size = digits.map fun _ => 1 :=
    List.map_congr_left fun c hc => utf8Size_of_isDigit (h c hc)
  rw [utf8Length_eq_sum, hone, List.map_const', List.sum_replicate, smul_eq_mul, Nat.mul_one]

namespace Cursor

/-- A move over some characters adds their bytes to the position. -/
theorem position_append {source found rest : List Char} (h : found ++ rest <:+ source) :
    position ⟨source, rest⟩ = position ⟨source, found ++ rest⟩ + utf8Length found := by
  obtain ⟨before, rfl⟩ := h
  simp only [position, utf8Length_append]
  omega

/-- The cursor between two parts of a source. -/
def between (before rest : List Char) : Cursor := ⟨before ++ rest, rest⟩

theorem position_between (before rest : List Char) :
    (between before rest).position = utf8Length before := by
  rw [between, position, utf8Length_append, Nat.add_sub_cancel]

/-- A move over some characters puts them behind the cursor. -/
theorem between_append (before found rest : List Char) :
    (⟨before ++ (found ++ rest), rest⟩ : Cursor) = between (before ++ found) rest := by
  rw [between, List.append_assoc]

/-! ## Numbers -/

theorem scanNumber_of_isNumber {source digits rest : List Char}
    (h : Grammar.IsNumber digits rest) :
    scanNumber ⟨source, digits ++ rest⟩ = (some (.ofDigits digits), ⟨source, rest⟩) := by
  have hscan : scanDigits (digits ++ rest) = some (digits, rest) :=
    scanDigits_eq_some_iff.mpr ⟨rfl, h⟩
  simp only [scanNumber, scan, hscan, Option.map_some]

/-- A run of decimal digits of any length that no letter, digit or underscore follows is read as
the number nearest to the natural number it denotes, of two equally near ones the one with the even
significand. From half a step beyond the largest finite number on, it is read as infinity. The
cursor moves over the digits and no further. -/
theorem scanNumber_nearest {source digits rest : List Char} (hsource : digits ++ rest <:+ source)
    (hne : digits ≠ []) (hdigits : ∀ c ∈ digits, c.isDigit = true)
    (hrest : ∀ c ∈ rest.head?, c.isAlphanum = false ∧ c ≠ '_') :
    ∃ n, scanNumber ⟨source, digits ++ rest⟩ = (some n, ⟨source, rest⟩) ∧
      position ⟨source, rest⟩ = position ⟨source, digits ++ rest⟩ + digits.length ∧
      n.isNegative = false ∧
      (n = .infinity ↔ 2 ^ 1024 - 2 ^ 970 ≤ Number.numeralValue digits) ∧
      (n ≠ .infinity → Number.IsNearest (Number.numeralValue digits) n) := by
  have hnumber : Grammar.IsNumber digits rest := by
    refine ⟨hne, hdigits, fun c hc => ?_⟩
    obtain ⟨halphanum, hunderscore⟩ := hrest c hc
    simp [extendsNumber, halphanum, hunderscore]
  refine ⟨.ofDigits digits, scanNumber_of_isNumber hnumber, ?_, ?_, ?_, ?_⟩
  · rw [position_append hsource, utf8Length_of_isDigit hdigits]
  · rw [Number.ofDigits_eq_ofNat]
    exact Number.isNegative_ofNat _
  · rw [Number.ofDigits_eq_ofNat]
    exact Number.ofNat_eq_infinity_iff
  · intro hfinite
    rw [Number.ofDigits_eq_ofNat] at hfinite ⊢
    have hnatural := (Number.ofNat_isNatural_or_eq_infinity _).resolve_right hfinite
    exact Number.isNearest_ofNat hnatural.finite

/-- The numeral of `2 ^ 53 + 1`, which lies halfway between two numbers, before a closing
parenthesis. -/
theorem scanNumber_nearest_halfway :
    ∃ n, scanNumber (.start "9007199254740993)".toList) =
        (some n, ⟨"9007199254740993)".toList, [')']⟩) ∧
      position ⟨"9007199254740993)".toList, [')']⟩ = 16 ∧
      Number.IsNearest 9007199254740993 n := by
  have hsource : "9007199254740993".toList ++ [')'] <:+ "9007199254740993)".toList := by decide
  have hne : "9007199254740993".toList ≠ [] := by decide
  have hdigits : ∀ c ∈ "9007199254740993".toList, c.isDigit = true := by simp
  have hrest : ∀ c ∈ [')'].head?, c.isAlphanum = false ∧ c ≠ '_' := by simp
  obtain ⟨n, hscan, hposition, -, hinfinity, hnearest⟩ :=
    scanNumber_nearest hsource hne hdigits hrest
  have hvalue : Number.numeralValue "9007199254740993".toList = 9007199254740993 := by decide
  rw [hvalue] at hinfinity hnearest
  have hfinite : n ≠ .infinity := by
    rw [Ne, hinfinity]
    decide +kernel
  exact ⟨n, hscan, hposition, mod_cast hnearest hfinite⟩

end Cursor

end Egg.Syntax
