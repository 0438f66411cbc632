import Egg.Expr.Printer
import Egg.Proofs.Expr.Leaves
import Egg.Proofs.Number.Printing
import Egg.Proofs.Syntax.Boundaries
import Egg.Proofs.Syntax.Parsing
import Mathlib

/-!
# Printing and parsing again

Source text is printed leaf by leaf. A leaf is read back if it could have been read in the first
place, except that an infinite number is printed as a word and negative zero loses its sign
(`Expr.reread`). Hence the trees that survive printing and parsing are exactly the *printable* ones.
-/

namespace Egg

open Syntax (isWordChar extendsNumber parse)
open Syntax.Grammar

/-! ## Leaves that can be read -/

/-- A word that is read as a word wherever it stands alone. -/
structure Syntax.Grammar.IsName (w : List Char) : Prop where
  ne_nil : w ≠ []
  wordChar : ∀ c ∈ w, isWordChar c = true
  /-- It does not start a comment. -/
  no_comment : w.head? ≠ some '#'
  /-- It is not a number with something behind it. -/
  not_number : ∀ digits rest, w = digits ++ rest → ¬ IsNumber digits rest

/-- The words and texts of a tree can be read, and its numbers have the property `p`. -/
structure Expr.WrittenWith (p : Number → Prop) (e : Expr) : Prop where
  word : ∀ w, .word w ∈ e.leaves → IsName w.toList
  text : ∀ t, .text t ∈ e.leaves → '"' ∉ t.toList
  number : ∀ n, .number n ∈ e.leaves → p n

/-- A tree whose words and texts can be read, and whose numbers are natural numbers. -/
def Expr.Printable (e : Expr) : Prop := e.WrittenWith Number.IsNatural

/-- A number that a run of digits can denote, up to the sign of zero: a natural number, or one that is
too large. -/
def Number.IsReadable (n : Number) : Prop := n.IsNatural ∨ n = .infinity

/-- What equals a number that can be read is the same number, or both are zero. -/
theorem Number.IsReadable.of_beq {m n : Number} (h : m.IsReadable)
    (heq : (m == n) = true) : n.IsReadable := by
  have hparts : Number.beq m n = true := heq
  simp only [Number.beq, Bool.and_eq_true, Bool.or_eq_true, beq_iff_eq] at hparts
  rcases hparts.2 with hbits | ⟨_, hzero⟩
  · obtain rfl : m = n := by
      cases m
      cases n
      congr
    exact h
  · exact .inl (isNatural_of_isZero hzero)

section Apply

variable {p : Number → Prop} {f : Expr} {args : List Expr}

theorem Expr.WrittenWith.operator (h : (Expr.apply f args).WrittenWith p) : f.WrittenWith p where
  word w hw := h.word w (mem_leaves_apply.mpr (.inl hw))
  text t ht := h.text t (mem_leaves_apply.mpr (.inl ht))
  number n hn := h.number n (mem_leaves_apply.mpr (.inl hn))

theorem Expr.WrittenWith.arg (h : (Expr.apply f args).WrittenWith p) {a : Expr} (ha : a ∈ args) :
    a.WrittenWith p where
  word w hw := h.word w (mem_leaves_apply.mpr (.inr ⟨a, ha, hw⟩))
  text t ht := h.text t (mem_leaves_apply.mpr (.inr ⟨a, ha, ht⟩))
  number n hn := h.number n (mem_leaves_apply.mpr (.inr ⟨a, ha, hn⟩))

theorem Expr.WrittenWith.apply (hf : f.WrittenWith p) (hargs : ∀ a ∈ args, a.WrittenWith p) :
    (Expr.apply f args).WrittenWith p where
  word w hw := by
    rcases mem_leaves_apply.mp hw with hw | ⟨a, ha, hw⟩
    · exact hf.word w hw
    · exact (hargs a ha).word w hw
  text t ht := by
    rcases mem_leaves_apply.mp ht with ht | ⟨a, ha, ht⟩
    · exact hf.text t ht
    · exact (hargs a ha).text t ht
  number n hn := by
    rcases mem_leaves_apply.mp hn with hn | ⟨a, ha, hn⟩
    · exact hf.number n hn
    · exact (hargs a ha).number n hn

end Apply

/-! ## What is read can be read -/

namespace Syntax.Grammar

section Written

variable {p : Number → Prop}

theorem Leaf.written (hp : ∀ k, p (.ofNat k)) {cs rest : List Char} {e : Expr}
    (hcomment : cs.head? ≠ some '#') (h : Leaf cs e rest) : e.WrittenWith p := by
  cases h with
  | @text t rest ht =>
    refine ⟨by simp [Expr.leaves], fun t' hmem => ?_, by simp [Expr.leaves]⟩
    obtain rfl : t' = String.ofList t := by simpa [Expr.leaves] using hmem
    rwa [String.toList_ofList]
  | @number digits rest hnumber =>
    refine ⟨by simp [Expr.leaves], by simp [Expr.leaves], fun n hmem => ?_⟩
    obtain rfl : n = .ofDigits digits := by simpa [Expr.leaves] using hmem
    exact hp _
  | @word w rest hword hn =>
    refine ⟨fun w' hmem => ?_, by simp [Expr.leaves], by simp [Expr.leaves]⟩
    obtain rfl : w' = String.ofList w := by simpa [Expr.leaves] using hmem
    rw [String.toList_ofList]
    refine ⟨hword.ne_nil, hword.wordChar, fun hhead => hcomment ?_, fun digits tail heq hnumber => ?_⟩
    · rw [List.head?_append, hhead]
      rfl
    · refine hn digits (tail ++ rest) ?_ ((hword.begins_with_number_iff heq).mpr hnumber)
      rw [heq, List.append_assoc]

mutual

theorem Expression.written (hp : ∀ k, p (.ofNat k)) {cs rest : List Char} {e : Expr} :
    Expression cs e rest → e.WrittenWith p
  | .mk hs hl ha => ha.written hp (hl.written hp fun hhead => (hs.boundary '#' hhead).2 rfl)

theorem Applications.written (hp : ∀ k, p (.ofNat k)) {cs rest : List Char} {f e : Expr} :
    Applications f cs e rest → f.WrittenWith p → e.WrittenWith p
  | .nil, hf => hf
  | .cons _ ha _ h, hf => h.written hp (hf.apply (ha.written hp))

theorem Arguments.written (hp : ∀ k, p (.ofNat k)) {cs rest : List Char} {args : List Expr} :
    Arguments cs args rest → ∀ a ∈ args, a.WrittenWith p
  | .nil => by simp
  | .cons he h => List.forall_mem_cons.mpr ⟨he.written hp, h.written hp⟩

theorem MoreArguments.written (hp : ∀ k, p (.ofNat k)) {cs rest : List Char} {args : List Expr} :
    MoreArguments cs args rest → ∀ a ∈ args, a.WrittenWith p
  | .nil => by simp
  | .trailing _ => by simp
  | .cons _ he h => List.forall_mem_cons.mpr ⟨he.written hp, h.written hp⟩

end

end Written

end Syntax.Grammar

/-- What holds of every number that digits denote holds of the numbers of a tree that is read. -/
theorem Syntax.writtenWith_of_parse {p : Number → Prop} (hp : ∀ k, p (.ofNat k)) {s : String}
    {e : Expr} (h : parse s = .ok e) : e.WrittenWith p := by
  obtain ⟨rest, he, _⟩ := program_of_parse h
  exact he.written hp

/-- Every tree that is read has leaves that can be read. -/
theorem Syntax.written_of_parse {s : String} {e : Expr} (h : parse s = .ok e) :
    e.WrittenWith Number.IsReadable :=
  writtenWith_of_parse Number.ofNat_isNatural_or_eq_infinity h

/-! ## What a printed tree is read as -/

mutual

/-- The tree that the source text of a tree is read as: an infinite number has become a word, and
zero has no sign. -/
def Expr.reread : Expr → Expr
  | .number n =>
    if n.isInfinite then .word "Infinity" else if n.isZero then .number ⟨0⟩ else .number n
  | .text s => .text s
  | .word w => .word w
  | .apply f args => .apply f.reread (rereadList args)

/-- The trees that the source texts of several trees are read as. -/
def Expr.rereadList : List Expr → List Expr
  | [] => []
  | e :: es => e.reread :: rereadList es

end

theorem Expr.rereadList_eq_map (es : List Expr) : rereadList es = es.map reread := by
  induction es with
  | nil => rfl
  | cons e es ih => rw [rereadList, ih, List.map_cons]

/-- A number literal is read back as an equal one if and only if it is finite. -/
theorem Expr.reread_number_beq_iff (n : Number) :
    ((Expr.number n).reread == .number n) = true ↔ n.IsFinite := by
  rw [reread]
  split_ifs with hinf hzero
  · constructor
    · intro h
      cases h
    · intro h
      rw [h.2] at hinf
      cases hinf
  · have hfinite := Number.isFinite_of_isZero hzero
    refine ⟨fun _ => hfinite, fun _ => ?_⟩
    change Number.beq ⟨0⟩ n = true
    have hzero' : Number.isZero ⟨0⟩ = true := rfl
    rw [Number.beq, hfinite.1, hzero, hzero', Bool.and_true, Bool.or_true]
    rfl
  · have hinf : n.isInfinite = false := by simpa using hinf
    change Number.beq n n = true ↔ _
    simp [Number.beq, Number.IsFinite, hinf]

/-- A tree is read back as an equal one if and only if its numbers are finite. -/
theorem Expr.reread_beq_iff (e : Expr) :
    (e.reread == e) = true ↔ ∀ n, .number n ∈ e.leaves → n.IsFinite := by
  induction e using Expr.induction with
  | number n => simp [reread_number_beq_iff, leaves]
  | text s => simp [reread, leaves, BEq.beq, Expr.beq]
  | word w => simp [reread, leaves, BEq.beq, Expr.beq]
  | apply f args ihf ihargs =>
    have hargs : beqList (rereadList args) args = true ↔
        ∀ a ∈ args, ∀ n, .number n ∈ a.leaves → n.IsFinite := by
      rw [rereadList_eq_map, beqList_map_iff]
      exact forall₂_congr ihargs
    change (f.reread.beq f && beqList (rereadList args) args) = true ↔ _
    rw [Bool.and_eq_true, hargs]
    constructor
    · rintro ⟨hf, hall⟩ n hn
      rcases mem_leaves_apply.mp hn with hn | ⟨a, ha, hn⟩
      · exact ihf.mp hf n hn
      · exact hall a ha n hn
    · intro h
      exact ⟨ihf.mpr fun n hn => h n (mem_leaves_apply.mpr (.inl hn)),
        fun a ha n hn => h n (mem_leaves_apply.mpr (.inr ⟨a, ha, hn⟩))⟩

/-! ## Printed text is read -/

namespace Syntax.Grammar

/-- Behind a leaf of printed text stands a punctuation mark or nothing. -/
def Ends (rest : List Char) : Prop := ∀ c ∈ rest.head?, c = '(' ∨ c = ')' ∨ c = ','

theorem Ends.isWordChar {rest : List Char} (h : Ends rest) :
    ∀ c ∈ rest.head?, isWordChar c = false := by
  intro c hc
  rcases h c hc with rfl | rfl | rfl <;> rfl

theorem Ends.extendsNumber {rest : List Char} (h : Ends rest) :
    ∀ c ∈ rest.head?, extendsNumber c = false := by
  intro c hc
  rcases h c hc with rfl | rfl | rfl <;> rfl

theorem Skips.punctuation {c : Char} {rest : List Char} (h : c = '(' ∨ c = ')' ∨ c = ',') :
    Skips (c :: rest) (c :: rest) := by
  refine .done fun d hd => ?_
  obtain rfl : c = d := by simpa using hd
  rcases h with rfl | rfl | rfl <;> decide

theorem Expression.of_leaf {cs rest : List Char} {e : Expr} (h : Leaf cs e rest)
    (hstart : ∀ c ∈ cs.head?, Text.isBlank c = false ∧ c ≠ '#') : Expression cs e rest :=
  .mk (.done hstart) h .nil

theorem Expression.blank {c : Char} {cs rest : List Char} {e : Expr} (hc : Text.isBlank c = true) :
    Expression cs e rest → Expression (c :: cs) e rest
  | .mk hs hl ha => .mk (.blank hc hs) hl ha

theorem Applications.snoc {f e : Expr} {args : List Expr} {cs cs₁ cs₂ cs₃ rest : List Char}
    (ho : Skips cs₁ ('(' :: cs₂)) (ha : Arguments cs₂ args cs₃) (hc : Skips cs₃ (')' :: rest)) :
    Applications f cs e cs₁ → Applications f cs (.apply e args) rest
  | .nil => .cons ho ha hc .nil
  | .cons ho' ha' hc' h => .cons ho' ha' hc' (h.snoc ho ha hc)

theorem Expression.snoc {f : Expr} {args : List Expr} {cs cs₁ cs₂ rest : List Char}
    (ha : Arguments cs₁ args cs₂) (hc : Skips cs₂ (')' :: rest)) :
    Expression cs f ('(' :: cs₁) → Expression cs (.apply f args) rest
  | .mk hs hl h => .mk hs hl (h.snoc (.punctuation (.inl rfl)) ha hc)

/-- A name that stands alone is read as a word. -/
theorem IsName.expression {w rest : List Char} (h : IsName w) (hrest : Ends rest) :
    Expression (w ++ rest) (.word (String.ofList w)) rest := by
  have hword : IsWord w rest := ⟨h.ne_nil, h.wordChar, hrest.isWordChar⟩
  refine .of_leaf (.word hword fun digits rest' heq hnumber => ?_) fun c hc => ?_
  · obtain ⟨tail, hsplit, rfl⟩ := hword.split hnumber.digit heq
    exact h.not_number digits tail hsplit ((hword.begins_with_number_iff hsplit).mp hnumber)
  · obtain ⟨d, w, rfl⟩ := List.exists_cons_of_ne_nil h.ne_nil
    obtain rfl : d = c := by simpa using hc
    refine ⟨not_isBlank_of_isWordChar (h.wordChar d List.mem_cons_self), ?_⟩
    rintro rfl
    exact h.no_comment rfl

/-- Digits that stand alone are read as a number. -/
theorem expression_digits {digits rest : List Char} (hne : digits ≠ [])
    (hdigit : ∀ c ∈ digits, c.isDigit = true) (hrest : Ends rest) :
    Expression (digits ++ rest) (.number (.ofDigits digits)) rest := by
  refine .of_leaf (.number ⟨hne, hdigit, hrest.extendsNumber⟩) fun c hc => ?_
  obtain ⟨d, digits, rfl⟩ := List.exists_cons_of_ne_nil hne
  obtain rfl : d = c := by simpa using hc
  have hd := hdigit d List.mem_cons_self
  have hchar := isWordChar_of_extendsNumber (extendsNumber_of_isDigit hd)
  refine ⟨not_isBlank_of_isWordChar hchar, ?_⟩
  rintro rfl
  cases hd

/-- A text is read wherever an expression may begin. -/
theorem expression_text {t : List Char} (ht : '"' ∉ t) (rest : List Char) :
    Expression ('"' :: (t ++ '"' :: rest)) (.text (String.ofList t)) rest := by
  refine .of_leaf (.text ht) fun c hc => ?_
  obtain rfl : '"' = c := by simpa using hc
  decide

theorem isName_infinity : IsName "Infinity".toList where
  ne_nil := by simp
  wordChar := by
    have hall : "Infinity".toList.all isWordChar = true := rfl
    exact List.all_eq_true.mp hall
  no_comment := by decide
  not_number := by
    intro digits rest heq hnumber
    obtain ⟨d, digits, rfl⟩ := List.exists_cons_of_ne_nil hnumber.ne_nil
    have hd := hnumber.digit d List.mem_cons_self
    obtain rfl : 'I' = d := (List.cons.inj heq).1
    cases hd

end Syntax.Grammar

open Syntax.Grammar in
theorem Number.IsReadable.expression {n : Number} {rest : List Char} (h : n.IsReadable)
    (hrest : Ends rest) : Expression (n.display ++ rest) (Expr.number n).reread rest := by
  rcases h with hnatural | rfl
  · cases hzero : n.isZero with
    | false =>
      obtain ⟨a, hdisplay, ha⟩ := hnatural.display_eq hzero
      have hread : (Expr.number n).reread = .number (.ofDigits (Nat.toDigits 10 a)) := by
        rw [ofDigits, Nat.ofDigitChars_ten_toDigits, ha]
        simp [Expr.reread, hnatural.finite.2, hzero]
      rw [hdisplay, hread]
      exact expression_digits Nat.toDigits_ne_nil
        (fun c hc => Nat.isDigit_of_mem_toDigits (by decide) (by decide) hc) hrest
    | true =>
      have hdisplay : n.display = ['0'] := by
        simp [display, hnatural.finite.1, hnatural.finite.2, hzero]
      have hread : (Expr.number n).reread = .number (.ofDigits ['0']) := by
        rw [Expr.reread, hnatural.finite.2, hzero]
        rfl
      rw [hdisplay, hread]
      exact expression_digits (by simp) (by simp) hrest
  · exact isName_infinity.expression hrest

namespace Expr

open Syntax.Grammar

/-- The arguments behind the first one, each after a comma and a space. -/
theorem exists_moreArguments {es : List Expr} (h : ∀ e ∈ es, ∀ rest, Ends rest →
    Expression (e.displayTo rest) e.reread rest) {rest : List Char} (hrest : Ends rest) (e : Expr) :
    ∃ cs, displayArgsTo (e :: es) rest = e.displayTo cs ∧ Ends cs ∧
      MoreArguments cs (es.map reread) rest := by
  induction es generalizing e with
  | nil => exact ⟨rest, by rw [displayArgsTo], hrest, .nil⟩
  | cons e' es ih =>
    rw [List.forall_mem_cons] at h
    obtain ⟨cs, hdisplay, hends, hmore⟩ := ih h.2 e'
    refine ⟨',' :: ' ' :: displayArgsTo (e' :: es) rest, by rw [displayArgsTo], by simp [Ends], ?_⟩
    rw [hdisplay]
    exact .cons (.punctuation (.inr (.inr rfl))) ((h.1 cs hends).blank rfl) hmore

theorem arguments_displayArgsTo {args : List Expr} (h : ∀ e ∈ args, ∀ rest, Ends rest →
    Expression (e.displayTo rest) e.reread rest) {rest : List Char} (hrest : Ends rest) :
    Arguments (displayArgsTo args rest) (args.map reread) rest := by
  cases args with
  | nil => exact .nil
  | cons e es =>
    rw [List.forall_mem_cons] at h
    obtain ⟨cs, hdisplay, hends, hmore⟩ := exists_moreArguments h.2 hrest e
    rw [hdisplay]
    exact .cons (h.1 cs hends) hmore

/-- The source text of a tree whose leaves can be read is read as `reread` says. -/
theorem WrittenWith.expression {e : Expr} (h : e.WrittenWith Number.IsReadable) (rest : List Char)
    (hrest : Ends rest) : Expression (e.displayTo rest) e.reread rest := by
  induction e using Expr.induction generalizing rest with
  | number n => exact (h.number n (by simp [leaves])).expression hrest
  | text s =>
    have htext := expression_text (h.text s (by simp [leaves])) rest
    rwa [String.ofList_toList] at htext
  | word w =>
    have hname := (h.word w (by simp [leaves])).expression hrest
    rwa [String.ofList_toList] at hname
  | apply f args ihf ihargs =>
    have hends : Ends (')' :: rest) := by simp [Ends]
    have hargs := arguments_displayArgsTo (fun a ha => ihargs a ha (h.arg ha)) hends
    rw [displayTo, reread, rereadList_eq_map]
    exact (ihf h.operator _ (by simp [Ends])).snoc hargs (.punctuation (.inr (.inl rfl)))

theorem WrittenWith.parse_display {e : Expr} (h : e.WrittenWith Number.IsReadable) :
    parse e.display = .ok e.reread := by
  refine Syntax.parse_of_program ⟨[], ?_, .done (by simp)⟩
  rw [display, String.toList_ofList]
  exact h.expression [] (by simp [Ends])

/-! ## The round trip -/

theorem Printable.readable {e : Expr} (h : e.Printable) : e.WrittenWith Number.IsReadable :=
  ⟨h.word, h.text, fun n hn => .inl (h.number n hn)⟩

theorem WrittenWith.of_beq {e e' : Expr} (h : e'.WrittenWith Number.IsReadable)
    (heq : (e' == e) = true) : e.WrittenWith Number.IsReadable where
  word w hw := by
    obtain ⟨l, hl, hlw⟩ := exists_leaf_of_beq heq hw
    obtain rfl := eq_of_beq_word hlw
    exact h.word w hl
  text t ht := by
    obtain ⟨l, hl, hlt⟩ := exists_leaf_of_beq heq ht
    obtain rfl := eq_of_beq_text hlt
    exact h.text t hl
  number n hn := by
    obtain ⟨l, hl, hln⟩ := exists_leaf_of_beq heq hn
    obtain ⟨m, rfl, hmn⟩ := exists_of_beq_number hln
    exact (h.number m hl).of_beq hmn

/-- Readable numbers that are finite are natural numbers. -/
theorem printable_iff {e : Expr} (h : e.WrittenWith Number.IsReadable) :
    e.Printable ↔ ∀ n, .number n ∈ e.leaves → n.IsFinite := by
  constructor
  · intro hprintable n hn
    exact (hprintable.number n hn).finite
  · intro hfinite
    refine ⟨h.word, h.text, fun n hn => ?_⟩
    rcases h.number n hn with hnatural | rfl
    · exact hnatural
    · cases (hfinite _ hn).2

/-- A tree survives printing and parsing, up to the sign of zero, exactly if it is printable: every
word is a name, no text contains a quote, and every number is a natural number. -/
theorem parse_display_iff_printable (e : Expr) :
    (∃ e', parse e.display = .ok e' ∧ (e' == e) = true) ↔ e.Printable := by
  constructor
  · rintro ⟨e', hparse, heq⟩
    -- The tree that was read has readable leaves, hence also the one that was printed.
    have hreadable := (Syntax.written_of_parse hparse).of_beq heq
    rw [hreadable.parse_display] at hparse
    cases hparse
    exact (printable_iff hreadable).mpr ((reread_beq_iff e).mp heq)
  · intro hprintable
    refine ⟨e.reread, hprintable.readable.parse_display, (reread_beq_iff e).mpr ?_⟩
    exact (printable_iff hprintable.readable).mp hprintable

/-- A tree that was read survives printing and parsing exactly if none of its numbers was too large
to be finite. -/
theorem parse_display_iff_of_parse {s : String} {e : Expr} (h : parse s = .ok e) :
    (∃ e', parse e.display = .ok e' ∧ (e' == e) = true) ↔
      ∀ n, .number n ∈ e.leaves → n.isInfinite = false := by
  have hreadable := Syntax.written_of_parse h
  constructor
  · rintro ⟨e', hparse, heq⟩ n hn
    rw [hreadable.parse_display] at hparse
    cases hparse
    exact ((reread_beq_iff e).mp heq n hn).2
  · intro hfinite
    refine ⟨e.reread, hreadable.parse_display, (reread_beq_iff e).mpr fun n hn => ?_⟩
    rcases hreadable.number n hn with hnatural | rfl
    · exact hnatural.finite
    · cases hfinite _ hn

/-- A call of a call, with a text, numbers and a trailing comma, is read, and survives. -/
theorem parse_display_iff_nested_call :
    parse "f(12, \"a b\")(007, y,)" =
        .ok (.apply (.apply (.word "f") [.number (.ofNat 12), .text "a b"])
          [.number (.ofNat 7), .word "y"]) ∧
      ((∃ e', parse (Expr.apply (.apply (.word "f") [.number (.ofNat 12), .text "a b"])
          [.number (.ofNat 7), .word "y"]).display = .ok e' ∧
          (e' == .apply (.apply (.word "f") [.number (.ofNat 12), .text "a b"])
            [.number (.ofNat 7), .word "y"]) = true) ↔
        ∀ n, .number n ∈ (Expr.apply (.apply (.word "f") [.number (.ofNat 12), .text "a b"])
          [.number (.ofNat 7), .word "y"]).leaves → n.isInfinite = false) := by
  have hparse : parse "f(12, \"a b\")(007, y,)" =
      .ok (.apply (.apply (.word "f") [.number (.ofNat 12), .text "a b"])
        [.number (.ofNat 7), .word "y"]) := by
    cbv
  exact ⟨hparse, parse_display_iff_of_parse hparse⟩

/-- A numeral that is too large, `1` and 309 zeros, is read as infinity. -/
theorem parse_large_numeral :
    parse (String.ofList ('1' :: List.replicate 309 '0')) = .ok (.number .infinity) := by
  have hread : Number.ofDigits ('1' :: List.replicate 309 '0') = .infinity := by
    rw [Number.ofDigits, Nat.ofDigitChars_cons, Nat.ofDigitChars_replicate_zero]
    decide +kernel
  have hexpr : Expression (('1' :: List.replicate 309 '0') ++ [])
      (.number (.ofDigits ('1' :: List.replicate 309 '0'))) [] := by
    refine expression_digits (List.cons_ne_nil _ _) (fun c hc => ?_) (by simp [Ends])
    rcases List.mem_cons.mp hc with rfl | hc
    · rfl
    · rw [List.eq_of_mem_replicate hc]
      rfl
  rw [List.append_nil, hread] at hexpr
  refine Syntax.parse_of_program ⟨[], ?_, .done (by simp)⟩
  rw [String.toList_ofList]
  exact hexpr

/-- Such a numeral does not survive: it is printed as a word. -/
theorem large_numeral_not_reread :
    parse (String.ofList ('1' :: List.replicate 309 '0')) = .ok (.number .infinity) ∧
      ¬ ∃ e', parse (Expr.number .infinity).display = .ok e' ∧
        (e' == .number .infinity) = true := by
  refine ⟨parse_large_numeral, ?_⟩
  rintro ⟨e', hparse, heq⟩
  rw [(Syntax.written_of_parse parse_large_numeral).parse_display] at hparse
  cases hparse
  cases heq

end Expr

end Egg
