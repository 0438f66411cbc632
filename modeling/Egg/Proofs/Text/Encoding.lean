import Mathlib

/-!
# Encoded texts

A text is stored as the bytes of its characters in UTF-8, and decoding them gives the text back. The
byte of a line feed is part of no other character, so a line feed can be found without decoding.
-/

namespace Egg.Text

/-- The bytes of some characters. -/
def encoded (cs : List Char) : List UInt8 := cs.flatMap String.utf8EncodeChar

/-- When `n` bytes are left to go through, these are put behind those gone through before. -/
theorem toList_loop {bytes : ByteArray} {i n : Nat} (h : i + n = bytes.size) (seen : List UInt8) :
    ByteArray.toList.loop bytes i seen = seen.reverse ++ bytes.data.toList.drop i := by
  induction n generalizing i seen with
  | zero =>
    have hend : bytes.data.toList.length ≤ i := Nat.le_of_eq h.symm
    rw [ByteArray.toList.loop, if_neg (by omega), List.drop_eq_nil_of_le hend, List.append_nil]
  | succ n ih =>
    have hi : i < bytes.size := by omega
    have hnext : bytes.get! i = bytes.data.toList[i] := by
      show bytes.data[i]! = _
      rw [getElem!_pos bytes.data i hi, Array.getElem_toList]
    rw [ByteArray.toList.loop, if_pos hi, ih (by omega), hnext, List.reverse_cons, List.append_assoc,
      List.singleton_append, ← List.drop_eq_getElem_cons]

theorem data_toUTF8 (s : String) : s.toUTF8.data.toList = encoded s.toList := by
  rw [String.toUTF8_eq_toByteArray, ← String.utf8Encode_toList, List.utf8Encode,
    List.toList_data_toByteArray, encoded]

theorem toList_toUTF8 (s : String) : s.toUTF8.toList = encoded s.toList := by
  rw [ByteArray.toList, toList_loop (Nat.zero_add _), List.drop_zero, data_toUTF8]
  rfl

theorem fromUTF8?_toUTF8 (s : String) : String.fromUTF8? s.toUTF8 = some s := by
  unfold String.fromUTF8?
  exact dif_pos s.isValidUTF8

theorem fromUTF8?_encoded (s : String) :
    String.fromUTF8? ⟨(encoded s.toList).toArray⟩ = some s := by
  rw [← data_toUTF8, Array.toArray_toList]
  exact fromUTF8?_toUTF8 s

/-- The byte of a line feed is below all bytes of characters that take more than one. -/
theorem newline_not_mem_utf8EncodeChar {c : Char} (hc : c ≠ '\n') :
    (10 : UInt8) ∉ String.utf8EncodeChar c := by
  have hval : c.val.toNat ≠ 10 := fun h => hc (Char.ext (UInt32.toNat_inj.mp h))
  have hbyte : ∀ n, n < 256 → n ≠ 10 → (10 : UInt8) ≠ UInt8.ofNat n := by
    intro n hn hne heq
    have hnat := congrArg UInt8.toNat heq
    rw [UInt8.toNat_ofNat_of_lt' hn] at hnat
    exact hne hnat.symm
  unfold String.utf8EncodeChar
  generalize c.val.toNat = v at hval
  simp only
  split
  · simpa using hbyte v (by omega) hval
  · split
    · simp only [List.mem_cons, List.not_mem_nil, or_false, not_or]
      refine ⟨hbyte _ ?_ ?_, hbyte _ ?_ ?_⟩ <;> omega
    · split
      · simp only [List.mem_cons, List.not_mem_nil, or_false, not_or]
        refine ⟨hbyte _ ?_ ?_, hbyte _ ?_ ?_, hbyte _ ?_ ?_⟩ <;> omega
      · simp only [List.mem_cons, List.not_mem_nil, or_false, not_or]
        refine ⟨hbyte _ ?_ ?_, hbyte _ ?_ ?_, hbyte _ ?_ ?_, hbyte _ ?_ ?_⟩ <;> omega

theorem newline_not_mem_encoded {cs : List Char} (h : '\n' ∉ cs) : (10 : UInt8) ∉ encoded cs := by
  intro hmem
  obtain ⟨c, hc, hbyte⟩ := List.mem_flatMap.mp hmem
  refine newline_not_mem_utf8EncodeChar ?_ hbyte
  rintro rfl
  exact h hc

theorem encoded_ne_nil {cs : List Char} (h : cs ≠ []) : encoded cs ≠ [] := by
  obtain ⟨c, cs, rfl⟩ := List.exists_cons_of_ne_nil h
  intro hnil
  have hfirst := (List.append_eq_nil_iff.mp hnil).1
  have hlength := String.length_utf8EncodeChar c
  rw [hfirst] at hlength
  exact absurd hlength (Nat.ne_of_lt c.utf8Size_pos)

end Egg.Text
