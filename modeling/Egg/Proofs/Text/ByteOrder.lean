import Egg.Proofs.Text.Encoding
import Mathlib

/-!
# The order of bytes and the order of characters

Texts can be compared byte by byte, as they are stored, or character by character. In UTF-8 both give
the same order (`encoded_lt_encoded_iff`): the more bytes a character has the greater is the first of
them, and characters of equally many bytes are numerals of base 64, as long as one another, with the
first digit in the first byte.
-/

namespace Egg.Text

/-! ## Numerals -/

/-- A number in base 64, its last `k` digits in a byte each and the rest of it in a first byte. -/
def numeral (lead : Nat) : (k : Nat) → (n : Nat) → List UInt8
  | 0, n => [.ofNat (n + lead)]
  | k + 1, n => numeral lead k (n / 64) ++ [.ofNat (n % 64 + 0x80)]

/-- A smaller byte decides, whatever follows. -/
theorem ofNat_cons_lt_ofNat_cons {m n : Nat} (hmn : m < n) (hn : n < 256) (bs bs' : List UInt8) :
    UInt8.ofNat m :: bs < UInt8.ofNat n :: bs' := by
  refine List.cons_lt_cons_iff.mpr (.inl ?_)
  rw [UInt8.lt_iff_toNat_lt, UInt8.toNat_ofNat_of_lt' (Nat.lt_trans hmn hn),
    UInt8.toNat_ofNat_of_lt' hn]
  exact hmn

theorem exists_numeral_eq_cons (lead k n : Nat) :
    ∃ bs, numeral lead k n = .ofNat (n / 64 ^ k + lead) :: bs := by
  induction k generalizing n with
  | zero => exact ⟨[], by rw [numeral, Nat.pow_zero, Nat.div_one]⟩
  | succ k ih =>
    obtain ⟨bs, hbs⟩ := ih (n / 64)
    rw [numeral, hbs, Nat.div_div_eq_div_mul, ← Nat.pow_succ']
    exact ⟨bs ++ [.ofNat (n % 64 + 0x80)], rfl⟩

/-- Numerals of the same length are ordered as the numbers are. -/
theorem numeral_append_lt {lead k m n : Nat} (hmn : m < n) (hn : n / 64 ^ k + lead < 256)
    (bs bs' : List UInt8) : numeral lead k m ++ bs < numeral lead k n ++ bs' := by
  induction k generalizing m n bs bs' with
  | zero =>
    rw [Nat.pow_zero, Nat.div_one] at hn
    exact ofNat_cons_lt_ofNat_cons (by omega) hn bs bs'
  | succ k ih =>
    rw [numeral, numeral, List.append_assoc, List.append_assoc]
    -- either the numerals differ before their last digits, or the last digits decide
    by_cases hlt : m / 64 < n / 64
    · rw [Nat.pow_succ', ← Nat.div_div_eq_div_mul] at hn
      exact ih hlt hn _ _
    · have hfront : m / 64 = n / 64 := by omega
      rw [hfront]
      exact List.append_left_lt (ofNat_cons_lt_ofNat_cons (by omega) (by omega) bs bs')

/-- The first byte of the shorter numeral is the smaller one. -/
theorem numeral_append_lt_of_lead {lead lead' k k' m n : Nat}
    (hlead : m / 64 ^ k + lead < n / 64 ^ k' + lead') (hn : n / 64 ^ k' + lead' < 256)
    (bs bs' : List UInt8) : numeral lead k m ++ bs < numeral lead' k' n ++ bs' := by
  obtain ⟨cs, hcs⟩ := exists_numeral_eq_cons lead k m
  obtain ⟨cs', hcs'⟩ := exists_numeral_eq_cons lead' k' n
  rw [hcs, hcs']
  exact ofNat_cons_lt_ofNat_cons hlead hn _ _

/-! ## Characters -/

/-- How the bytes of a character hold its number. -/
inductive Encodes (n : Nat) : (lead k : Nat) → Prop where
  | one (h : n < 0x80) : Encodes n 0 0
  | two (h : 0x80 ≤ n) (h' : n < 0x800) : Encodes n 0xc0 1
  | three (h : 0x800 ≤ n) (h' : n < 0x10000) : Encodes n 0xe0 2
  | four (h : 0x10000 ≤ n) (h' : n < 0x110000) : Encodes n 0xf0 3

theorem exists_utf8EncodeChar_eq (c : Char) :
    ∃ lead k, Encodes c.toNat lead k ∧ String.utf8EncodeChar c = numeral lead k c.toNat := by
  have hmax : c.toNat < 0x110000 := by
    rcases c.valid with h | h
    · exact Nat.lt_trans h (by decide)
    · exact h.2
  unfold String.utf8EncodeChar
  rw [show c.val.toNat = c.toNat from rfl]
  generalize c.toNat = n at hmax
  by_cases hone : n ≤ 0x7f
  · exact ⟨0, 0, .one (by omega), by simp [hone, numeral]⟩
  by_cases htwo : n ≤ 0x7ff
  · refine ⟨_, _, .two (by omega) (by omega), ?_⟩
    have hmod : n / 64 % 0x20 = n / 64 := Nat.mod_eq_of_lt (by omega)
    simp [hone, htwo, numeral, hmod]
  by_cases hthree : n ≤ 0xffff
  · refine ⟨_, _, .three (by omega) (by omega), ?_⟩
    have hmod : n / 4096 % 0x10 = n / 4096 := Nat.mod_eq_of_lt (by omega)
    simp [hone, htwo, hthree, numeral, hmod, Nat.div_div_eq_div_mul]
  · refine ⟨_, _, .four (by omega) hmax, ?_⟩
    have hmod : n / 262144 % 0x08 = n / 262144 := Nat.mod_eq_of_lt (by omega)
    simp [hone, htwo, hthree, numeral, hmod, Nat.div_div_eq_div_mul]

/-- Of two characters the smaller one has the smaller bytes, whatever follows them. -/
theorem utf8EncodeChar_append_lt {c d : Char} (h : c < d) (bs bs' : List UInt8) :
    String.utf8EncodeChar c ++ bs < String.utf8EncodeChar d ++ bs' := by
  have hlt : c.toNat < d.toNat := UInt32.lt_iff_toNat_lt.mp h
  obtain ⟨lead, k, hc, heq⟩ := exists_utf8EncodeChar_eq c
  obtain ⟨lead', k', hd, heq'⟩ := exists_utf8EncodeChar_eq d
  rw [heq, heq']
  generalize c.toNat = m at *
  generalize d.toNat = n at *
  have hn : n / 64 ^ k' + lead' < 256 := by
    cases hd <;> omega
  by_cases hk : k = k'
  · subst hk
    obtain rfl : lead = lead' := by
      cases hc <;> cases hd <;> rfl
    exact numeral_append_lt hlt hn bs bs'
  · refine numeral_append_lt_of_lead ?_ hn bs bs'
    cases hc <;> cases hd <;> omega

/-! ## Texts -/

theorem encoded_lt_encoded {cs ds : List Char} (h : cs < ds) : encoded cs < encoded ds := by
  induction cs generalizing ds with
  | nil =>
    cases ds with
    | nil => exact absurd h (List.lt_irrefl [])
    | cons d ds =>
      obtain ⟨b, bs, hbs⟩ := List.exists_cons_of_ne_nil (encoded_ne_nil (List.cons_ne_nil d ds))
      rw [hbs]
      exact List.nil_lt_cons b bs
  | cons c cs ih =>
    cases ds with
    | nil => exact absurd h (List.not_lt_nil _)
    | cons d ds =>
      rcases List.cons_lt_cons_iff.mp h with hlt | ⟨rfl, hrest⟩
      · exact utf8EncodeChar_append_lt hlt (encoded cs) (encoded ds)
      · exact List.append_left_lt (ih hrest)

/-- Comparing the bytes of texts is comparing their characters. -/
theorem encoded_lt_encoded_iff {cs ds : List Char} : encoded cs < encoded ds ↔ cs < ds := by
  refine ⟨fun h => ?_, encoded_lt_encoded⟩
  rcases lt_trichotomy cs ds with hlt | rfl | hgt
  · exact hlt
  · exact absurd h (List.lt_irrefl _)
  · exact absurd h (List.lt_asymm (encoded_lt_encoded hgt))

/-- Characters are compared by their code points. -/
theorem map_toNat_lt_map_toNat_iff {cs ds : List Char} :
    cs.map Char.toNat < ds.map Char.toNat ↔ cs < ds := by
  induction cs generalizing ds with
  | nil => cases ds <;> simp
  | cons c cs ih =>
    cases ds with
    | nil => simp
    | cons d ds =>
      have hlt : c.toNat < d.toNat ↔ c < d := UInt32.lt_iff_toNat_lt.symm
      rw [List.map_cons, List.map_cons, List.cons_lt_cons_iff, List.cons_lt_cons_iff, ih, hlt,
        Char.toNat_inj]

end Egg.Text
