import Egg.Text.Quoted
import Egg.Proofs.Syntax.Scanning
import Mathlib

/-!
# Quoted texts tell their contents

In a quoted text every character is written in one of three forms: as itself, by a backslash and a
letter, or by its code point in hexadecimal (`form_escaped`). No form is the beginning of another
one, and none begins with the quote that ends the text. So a text can be told from its quoted form,
also where more follows (`IsQuoted.append_inj`). Line breaks do not occur in it.
-/

namespace Egg.Text

/-! ## Hexadecimal numerals -/

theorem mem_toDigits_sixteen {n : Nat} {c : Char} (h : c ∈ Nat.toDigits 16 n) :
    ∃ k < 16, c = Nat.digitChar k := by
  induction n using Nat.strongRecOn with
  | ind n ih =>
    by_cases hlt : n < 16
    · rw [Nat.toDigits_of_lt_base hlt, List.mem_singleton] at h
      exact ⟨n, hlt, h⟩
    · rw [Nat.toDigits_of_base_le (by decide) (by omega), List.mem_append, List.mem_singleton] at h
      rcases h with h | h
      · exact ih (n / 16) (by omega) h
      · exact ⟨n % 16, by omega, h⟩

theorem toDigits_sixteen_ne {n : Nat} {c : Char} (h : c ∈ Nat.toDigits 16 n) :
    c ≠ '\x7d' ∧ c ≠ '\n' := by
  obtain ⟨k, hk, rfl⟩ := mem_toDigits_sixteen h
  have hall : ∀ k < 16, Nat.digitChar k ≠ '\x7d' ∧ Nat.digitChar k ≠ '\n' := by decide
  exact hall k hk

theorem toDigits_sixteen_inj {m n : Nat} (h : Nat.toDigits 16 m = Nat.toDigits 16 n) : m = n := by
  have hdigit : ∀ j < 16, ∀ k < 16, Nat.digitChar j = Nat.digitChar k → j = k := by decide
  -- The last digit is the remainder and the digits before it are those of the quotient.
  have hmore : ∀ k, 16 ≤ k →
      Nat.toDigits 16 k = Nat.toDigits 16 (k / 16) ++ [Nat.digitChar (k % 16)] :=
    fun k hk => Nat.toDigits_of_base_le (by decide) hk
  have hlength : ∀ k, 16 ≤ k → 1 < (Nat.toDigits 16 k).length := by
    intro k hk
    have hne : Nat.toDigits 16 (k / 16) ≠ [] := Nat.toDigits_ne_nil
    have hpos := List.length_pos_iff.mpr hne
    rw [hmore k hk, List.length_append, List.length_singleton]
    omega
  induction m using Nat.strongRecOn generalizing n with
  | ind m ih =>
    have heq := congrArg List.length h
    by_cases hm : m < 16
    · by_cases hn : n < 16
      · rw [Nat.toDigits_of_lt_base hm, Nat.toDigits_of_lt_base hn] at h
        exact hdigit m hm n hn (List.cons.inj h).1
      · have hlong := hlength n (by omega)
        rw [Nat.toDigits_of_lt_base hm, List.length_singleton] at heq
        omega
    · by_cases hn : n < 16
      · have hlong := hlength m (by omega)
        rw [Nat.toDigits_of_lt_base hn, List.length_singleton] at heq
        omega
      · rw [hmore m (by omega), hmore n (by omega)] at h
        obtain ⟨hquotient, hlast⟩ := List.append_inj' h rfl
        have hdiv := ih (m / 16) (by omega) hquotient
        have hmod := hdigit _ (by omega) _ (by omega) (List.cons.inj hlast).1
        omega

/-! ## The forms of a character -/

/-- The characters that are written by a letter, and their letters. -/
def letters : List (Char × Char) :=
  [('\x00', '0'), ('\t', 't'), ('\r', 'r'), ('\n', 'n'), ('\\', '\\'), ('"', '"')]

theorem letters_inj {c d x : Char} (hc : (c, x) ∈ letters) (hd : (d, x) ∈ letters) : c = d := by
  have hall : ∀ p ∈ letters, ∀ q ∈ letters, p.2 = q.2 → p.1 = q.1 := by decide
  exact hall _ hc _ hd rfl

theorem letters_ne {c x : Char} (h : (c, x) ∈ letters) : x ≠ 'u' ∧ x ≠ '\n' := by
  have hall : ∀ p ∈ letters, p.2 ≠ 'u' ∧ p.2 ≠ '\n' := by decide
  exact hall _ h

/-- What is written for a character. A letter goes before all else. Of the characters without one, those
of ASCII that can be seen stand for themselves, and the controls are given by their code points. Beyond
ASCII there are both. -/
inductive Form (c : Char) : List Char → Prop where
  | letter {x : Char} (h : (c, x) ∈ letters) : Form c ['\\', x]
  | code (hletter : ∀ x, (c, x) ∉ letters) (hc : c.toNat < 0x20 ∨ 0x7f ≤ c.toNat) :
      Form c ('\\' :: 'u' :: '\x7b' :: (Nat.toDigits 16 c.toNat ++ ['\x7d']))
  | plain (hletter : ∀ x, (c, x) ∉ letters) (hc : 0x20 ≤ c.toNat) : Form c [c]

/-- The tables matter beyond ASCII only. -/
theorem combining_or_unprintable_iff {c : Char} (hc : c.toNat < 0x7f) :
    (isCombining c || !isPrintable c) = true ↔ c.toNat < 0x20 := by
  have hcombining : isCombining c = false := by
    rw [isCombining, decide_eq_false (by omega), Bool.false_and]
  rw [hcombining, isPrintable, if_pos hc]
  simp

theorem form_escaped (c : Char) : Form c (escaped c) := by
  unfold escaped
  split_ifs with h₁ h₂ h₃ h₄ h₅ h₆ hcode
  · exact .letter (by simp [letters, h₁])
  · exact .letter (by simp [letters, h₂])
  · exact .letter (by simp [letters, h₃])
  · exact .letter (by simp [letters, h₄])
  · exact .letter (by simp [letters, h₅])
  · exact .letter (by simp [letters, h₆])
  all_goals
    have hletter : ∀ x, (c, x) ∉ letters := by simp [letters, *]
  · refine .code hletter ?_
    by_cases hc : c.toNat < 0x7f
    · exact .inl ((combining_or_unprintable_iff hc).mp hcode)
    · exact .inr (Nat.le_of_not_lt hc)
  · refine .plain hletter ?_
    by_contra hc
    exact hcode ((combining_or_unprintable_iff (by omega)).mpr (by omega))

theorem ne_of_not_letter {c : Char} (h : ∀ x, (c, x) ∉ letters) : c ≠ '\\' ∧ c ≠ '"' ∧ c ≠ '\n' := by
  refine ⟨?_, ?_, ?_⟩
  · rintro rfl
    exact h '\\' (by simp [letters])
  · rintro rfl
    exact h '"' (by simp [letters])
  · rintro rfl
    exact h 'n' (by simp [letters])

theorem Form.newline_not_mem {c : Char} {cs : List Char} (h : Form c cs) : '\n' ∉ cs := by
  intro hmem
  cases h with
  | letter h =>
    have hx := (letters_ne h).2
    simp [hx.symm] at hmem
  | code =>
    have hcode : '\n' ∈ Nat.toDigits 16 c.toNat := by simpa using hmem
    exact (toDigits_sixteen_ne hcode).2 rfl
  | plain hletter => exact (ne_of_not_letter hletter).2.2 (List.mem_singleton.mp hmem).symm

theorem Form.head?_ne {c : Char} {cs : List Char} (h : Form c cs) (r : List Char) :
    (cs ++ r).head? ≠ some '"' := by
  cases h with
  | letter => simp
  | code => simp
  | plain hletter => simpa using (ne_of_not_letter hletter).2.1

/-- The form of a character can be told from what follows it. -/
theorem Form.append_inj {c d : Char} {cs ds r r' : List Char} (hc : Form c cs) (hd : Form d ds)
    (h : cs ++ r = ds ++ r') : c = d ∧ r = r' := by
  cases hc with
  | letter hx =>
    cases hd with
    | letter hy =>
      simp only [List.cons_append, List.nil_append, List.cons.injEq, true_and] at h
      obtain ⟨rfl, hrest⟩ := h
      exact ⟨letters_inj hx hy, hrest⟩
    | code => exact absurd (List.cons.inj (List.cons.inj h).2).1 (letters_ne hx).1
    | plain hletter => exact absurd (List.cons.inj h).1.symm (ne_of_not_letter hletter).1
  | code =>
    cases hd with
    | letter hy => exact absurd (List.cons.inj (List.cons.inj h).2).1.symm (letters_ne hy).1
    | code =>
      simp only [List.cons_append, List.append_assoc, List.nil_append, List.cons.injEq,
        true_and] at h
      have hhex : ∀ k, ∀ x ∈ Nat.toDigits 16 k, (x != '\x7d') = true := by
        intro k x hx
        simpa using (toDigits_sixteen_ne hx).1
      obtain ⟨hdigits, hrest⟩ := Syntax.append_inj_of_class (hhex _) (hhex _) (by simp) (by simp) h
      exact ⟨Char.toNat_inj.mp (toDigits_sixteen_inj hdigits), (List.cons.inj hrest).2⟩
    | plain hletter => exact absurd (List.cons.inj h).1.symm (ne_of_not_letter hletter).1
  | plain hletter =>
    have hbackslash := (ne_of_not_letter hletter).1
    cases hd with
    | letter => exact absurd (List.cons.inj h).1 hbackslash
    | code => exact absurd (List.cons.inj h).1 hbackslash
    | plain => exact List.cons.inj h

/-! ## The quoted form of a text -/

/-- `text` is `s` between quotes, with every character in one of its forms. -/
def IsQuoted (s : String) (text : List Char) : Prop :=
  ∃ forms, List.Forall₂ Form s.toList forms ∧ text = '"' :: (forms.flatten ++ ['"'])

theorem isQuoted_quoted (s : String) : IsQuoted s (quoted s) := by
  refine ⟨s.toList.map escaped, ?_, ?_⟩
  · exact List.forall₂_map_right_iff.mpr (List.forall₂_same.mpr fun c _ => form_escaped c)
  · rw [quoted, List.flatMap_def]

theorem flatten_forms_inj {s t r r' : List Char} {forms forms' : List (List Char)}
    (hs : List.Forall₂ Form s forms) (ht : List.Forall₂ Form t forms')
    (h : forms.flatten ++ '"' :: r = forms'.flatten ++ '"' :: r') : s = t ∧ r = r' := by
  induction hs generalizing t forms' with
  | nil =>
    cases ht with
    | nil => exact ⟨rfl, (List.cons.inj h).2⟩
    | cons hd ht =>
      rw [List.flatten_cons, List.append_assoc] at h
      exact absurd (congrArg List.head? h.symm) (hd.head?_ne _)
  | cons hc hs ih =>
    cases ht with
    | nil =>
      rw [List.flatten_cons, List.append_assoc] at h
      exact absurd (congrArg List.head? h) (hc.head?_ne _)
    | cons hd ht =>
      rw [List.flatten_cons, List.flatten_cons, List.append_assoc, List.append_assoc] at h
      obtain ⟨rfl, hmore⟩ := hc.append_inj hd h
      obtain ⟨rfl, hrest⟩ := ih ht hmore
      exact ⟨rfl, hrest⟩

theorem IsQuoted.append_inj {s t : String} {text text' r r' : List Char} (hs : IsQuoted s text)
    (ht : IsQuoted t text') (h : text ++ r = text' ++ r') : s = t ∧ r = r' := by
  obtain ⟨forms, hs, rfl⟩ := hs
  obtain ⟨forms', ht, rfl⟩ := ht
  simp only [List.cons_append, List.append_assoc, List.nil_append, List.cons.injEq, true_and] at h
  obtain ⟨htext, hrest⟩ := flatten_forms_inj hs ht h
  exact ⟨String.toList_inj.mp htext, hrest⟩

theorem quoted_append_inj {s t : String} {r r' : List Char}
    (h : quoted s ++ r = quoted t ++ r') : s = t ∧ r = r' :=
  (isQuoted_quoted s).append_inj (isQuoted_quoted t) h

theorem newline_not_mem_quoted (s : String) : '\n' ∉ quoted s := by
  intro hmem
  have hbody : '\n' ∈ s.toList.flatMap escaped := by simpa [quoted] using hmem
  obtain ⟨c, -, hc⟩ := List.mem_flatMap.mp hbody
  exact (form_escaped c).newline_not_mem hc

end Egg.Text
