import Egg.Proofs.Expr.Leaves
import Egg.Proofs.Syntax.ErrorPlace
import Egg.Proofs.Syntax.Skipping
import Mathlib

/-!
# Reading by descent

The grammar can be read by three procedures that call one another: one for an expression, one for the
argument lists behind it, and one for what stands in an argument list. The last two are loops. Here
the procedures are given by their rules, with the errors that they report.

They come to an end on every text (`exists_reading`), in one way only (`Expression.unique`), and the
parser does what they do, whatever calls are open (`Expression.read`). That the loops end is due to
the characters that each round uses up, and these also pay for the tree: a leaf takes at least one of
them, and an application two, its parentheses (`Expression.spends`).
-/

namespace Egg

/-! ## The size of a tree -/

namespace Expr

mutual

/-- The number of applications in a tree. -/
def applications : Expr → Nat
  | .number _ => 0
  | .text _ => 0
  | .word _ => 0
  | .apply f args => f.applications + applicationsList args + 1

/-- The number of applications in several trees. -/
def applicationsList : List Expr → Nat
  | [] => 0
  | e :: es => e.applications + applicationsList es

end

/-- What a tree costs: one for each leaf, and two for each application. -/
def weight (e : Expr) : Nat := e.leaves.length + 2 * e.applications

/-- What several trees cost. -/
def weightList (es : List Expr) : Nat := (leavesList es).length + 2 * applicationsList es

theorem weight_apply (f : Expr) (args : List Expr) :
    (Expr.apply f args).weight = f.weight + weightList args + 2 := by
  simp only [weight, weightList, leaves, applications, List.length_append]
  omega

theorem weightList_append_singleton (es : List Expr) (e : Expr) :
    weightList (es ++ [e]) = weightList es + e.weight := by
  induction es with
  | nil => simp [weightList, weight, leavesList, applicationsList]
  | cons a es ih =>
    simp only [weightList, leavesList, applicationsList, List.cons_append, List.length_append]
      at ih ⊢
    omega

theorem weight_pos (e : Expr) : 0 < e.weight := by
  induction e using Expr.induction with
  | number | text | word => exact Nat.zero_lt_one
  | apply f args ihf _ =>
    rw [weight_apply]
    omega

end Expr

namespace Syntax

/-! ## The procedures -/

/-- What reading comes to: what was read and the text behind it, or an error. -/
abbrev Reading (α : Type) := Except ParseError (α × List Char)

namespace Descent

mutual

/-- `Expression cs r`: reading an expression at the start of `cs` comes to `r`. -/
inductive Expression : List Char → Reading Expr → Prop where
  /-- No leaf stands behind the separators. -/
  | refused {cs : List Char} (hl : scanLeaf (skipSeparators cs) = none) :
      Expression cs (.error (.unexpectedInput (excerpt (skipSeparators cs))))
  | leaf {cs cs₁ : List Char} {e : Expr} {r : Reading Expr}
      (hl : scanLeaf (skipSeparators cs) = some (e, cs₁)) (ha : Applications e cs₁ r) :
      Expression cs r

/-- `Applications f cs r`: reading the argument lists behind `f` at the start of `cs` comes to `r`. -/
inductive Applications : Expr → List Char → Reading Expr → Prop where
  /-- No argument list follows. -/
  | done {f : Expr} {cs : List Char} (ho : (skipSeparators cs).head? ≠ some '(') :
      Applications f cs (.ok (f, skipSeparators cs))
  | refused {f : Expr} {cs cs₁ : List Char} {x : ParseError} (ho : skipSeparators cs = '(' :: cs₁)
      (ha : Arguments [] cs₁ (.error x)) : Applications f cs (.error x)
  /-- The loop goes on behind an argument list. -/
  | call {f : Expr} {args : List Expr} {cs cs₁ cs₂ : List Char} {r : Reading Expr}
      (ho : skipSeparators cs = '(' :: cs₁) (ha : Arguments [] cs₁ (.ok (args, cs₂)))
      (h : Applications (.apply f args) cs₂ r) : Applications f cs r

/-- `Arguments args cs r`: in an argument list, behind the arguments `args`, reading on at the start of
`cs` comes to `r`. -/
inductive Arguments : List Expr → List Char → Reading (List Expr) → Prop where
  | closed {args : List Expr} {cs cs₁ : List Char} (hc : skipSeparators cs = ')' :: cs₁) :
      Arguments args cs (.ok (args, cs₁))
  | refused {args : List Expr} {cs : List Char} {x : ParseError}
      (hc : (skipSeparators cs).head? ≠ some ')')
      (he : Expression (skipSeparators cs) (.error x)) : Arguments args cs (.error x)
  /-- The loop goes on behind a comma. -/
  | comma {args : List Expr} {cs cs₁ cs₂ : List Char} {e : Expr} {r : Reading (List Expr)}
      (hc : (skipSeparators cs).head? ≠ some ')')
      (he : Expression (skipSeparators cs) (.ok (e, cs₁))) (hm : skipSeparators cs₁ = ',' :: cs₂)
      (h : Arguments (args ++ [e]) cs₂ r) : Arguments args cs r
  /-- The loop goes on before the closing parenthesis. -/
  | last {args : List Expr} {cs cs₁ cs₂ : List Char} {e : Expr} {r : Reading (List Expr)}
      (hc : (skipSeparators cs).head? ≠ some ')')
      (he : Expression (skipSeparators cs) (.ok (e, cs₁))) (hm : skipSeparators cs₁ = ')' :: cs₂)
      (h : Arguments (args ++ [e]) (skipSeparators cs₁) r) : Arguments args cs r
  | unseparated {args : List Expr} {cs cs₁ : List Char} {e : Expr}
      (hc : (skipSeparators cs).head? ≠ some ')')
      (he : Expression (skipSeparators cs) (.ok (e, cs₁)))
      (hcomma : (skipSeparators cs₁).head? ≠ some ',')
      (hclosing : (skipSeparators cs₁).head? ≠ some ')') :
      Arguments args cs (.error (.expectedCommaOrParen (excerpt (skipSeparators cs₁))))

end

/-- The program that has been read, if nothing but separators stands behind its expression. -/
def program : Reading Expr → Except ParseError Expr
  | .error x => .error x
  | .ok (e, rest) =>
    if skipSeparators rest = [] then .ok e
    else .error (.unexpectedTrailingText (excerpt (skipSeparators rest)))

/-! ## What is read is paid for -/

/-- If something has been read from `cs`, then its weight is covered by the credit and by the
characters that it took. -/
def Spends {α : Type} (weight : α → Nat) (credit : Nat) (cs : List Char) (r : Reading α) : Prop :=
  ∀ x rest, r = .ok (x, rest) → rest <:+ cs ∧ weight x + rest.length ≤ credit + cs.length

theorem spends_error {α : Type} (weight : α → Nat) (credit : Nat) (cs : List Char) (x : ParseError) :
    Spends weight credit cs (.error x) := by
  intro _ _ h
  cases h

theorem Spends.of_suffix {α : Type} {weight : α → Nat} {credit credit₁ : Nat} {cs cs₁ : List Char}
    {r : Reading α} (h : Spends weight credit₁ cs₁ r) (hcs : cs₁ <:+ cs)
    (hcredit : credit₁ + cs₁.length ≤ credit + cs.length) : Spends weight credit cs r := by
  intro x rest hr
  obtain ⟨hsuffix, hle⟩ := h x rest hr
  exact ⟨hsuffix.trans hcs, hle.trans hcredit⟩

theorem skipSeparators_suffix (cs : List Char) : skipSeparators cs <:+ cs :=
  skipSeparatorsFrom_suffix false cs

/-- Behind a character that stands after the separators, less is left. -/
theorem suffix_and_length_of_skip {cs rest : List Char} {c : Char}
    (h : skipSeparators cs = c :: rest) : rest <:+ cs ∧ rest.length + 1 ≤ cs.length := by
  have hskip := skipSeparators_suffix cs
  rw [h] at hskip
  exact ⟨(List.suffix_cons c rest).trans hskip, hskip.length_le⟩

theorem weight_of_scanLeaf {cs rest : List Char} {e : Expr} (h : scanLeaf cs = some (e, rest)) :
    e.weight = 1 := by
  cases leaf_iff.mpr h with
  | text | number | word => rfl

mutual

theorem Expression.spends {cs : List Char} {r : Reading Expr} :
    Expression cs r → Spends Expr.weight 0 cs r
  | .refused _ => spends_error _ _ _ _
  | .leaf hl ha => by
    have hskip := skipSeparators_suffix cs
    have hlt := length_lt_of_scanLeaf hl
    have hweight := weight_of_scanLeaf hl
    have hle := hskip.length_le
    refine ha.spends.of_suffix ((leaf_iff.mpr hl).suffix.trans hskip) ?_
    omega

theorem Applications.spends {f : Expr} {cs : List Char} {r : Reading Expr} :
    Applications f cs r → Spends Expr.weight f.weight cs r
  | .done _ => by
    have hskip := skipSeparators_suffix cs
    intro e rest hr
    cases hr
    exact ⟨hskip, Nat.add_le_add_left hskip.length_le _⟩
  | .refused _ _ => spends_error _ _ _ _
  | .call ho ha h => by
    obtain ⟨hopening, hle⟩ := suffix_and_length_of_skip ho
    obtain ⟨hsuffix, hargs⟩ := ha.spends _ _ rfl
    change Expr.weightList _ + 1 + _ ≤ 0 + _ at hargs
    -- the parentheses pay for the application: one was passed here, the other one by the arguments
    refine h.spends.of_suffix (hsuffix.trans hopening) ?_
    rw [Expr.weight_apply]
    omega

theorem Arguments.spends {args : List Expr} {cs : List Char} {r : Reading (List Expr)} :
    Arguments args cs r → Spends (fun as => Expr.weightList as + 1) (Expr.weightList args) cs r
  | .closed hc => by
    obtain ⟨hsuffix, hle⟩ := suffix_and_length_of_skip hc
    intro as rest hr
    cases hr
    refine ⟨hsuffix, ?_⟩
    change Expr.weightList args + 1 + _ ≤ _
    omega
  | .refused _ _ => spends_error _ _ _ _
  | .comma _ he hm h => by
    obtain ⟨hsuffix, hweight⟩ := he.spends _ _ rfl
    obtain ⟨hcomma, hle⟩ := suffix_and_length_of_skip hm
    have hskip := skipSeparators_suffix cs
    have hskiple := hskip.length_le
    refine h.spends.of_suffix ((hcomma.trans hsuffix).trans hskip) ?_
    rw [Expr.weightList_append_singleton]
    omega
  | @Arguments.last _ _ cs₁ _ _ _ _ he _ h => by
    obtain ⟨hsuffix, hweight⟩ := he.spends _ _ rfl
    have hmark := skipSeparators_suffix cs₁
    have hmarkle := hmark.length_le
    have hskip := skipSeparators_suffix cs
    have hskiple := hskip.length_le
    refine h.spends.of_suffix ((hmark.trans hsuffix).trans hskip) ?_
    rw [Expr.weightList_append_singleton]
    omega
  | .unseparated _ _ _ _ => spends_error _ _ _ _

end

/-! ## Every procedure comes to an end -/

theorem exists_expression {n : Nat}
    (hshort : ∀ cs : List Char, cs.length < n → ∀ f, ∃ r, Applications f cs r) {cs : List Char}
    (hcs : cs.length ≤ n) : ∃ r, Expression cs r := by
  cases hl : scanLeaf (skipSeparators cs) with
  | none => exact ⟨_, .refused hl⟩
  | some found =>
    obtain ⟨e, cs₁⟩ := found
    have hlt := length_lt_of_scanLeaf hl
    have hle := length_skipSeparators_le cs
    obtain ⟨r, ha⟩ := hshort cs₁ (by omega) e
    exact ⟨r, .leaf hl ha⟩

/-- The loop over argument lists goes on with less text. -/
theorem exists_applications {cs : List Char}
    (hargs : ∀ cs₁ : List Char, cs₁.length < cs.length → ∃ r, Arguments [] cs₁ r)
    (hnext : ∀ cs₁ : List Char, cs₁.length < cs.length → ∀ f, ∃ r, Applications f cs₁ r) (f : Expr) :
    ∃ r, Applications f cs r := by
  by_cases ho : (skipSeparators cs).head? = some '('
  · obtain ⟨cs₁, hopening⟩ := List.head?_eq_some_iff.mp ho
    obtain ⟨-, hlt⟩ := suffix_and_length_of_skip hopening
    obtain ⟨r, ha⟩ := hargs cs₁ hlt
    cases r with
    | error x => exact ⟨_, .refused hopening ha⟩
    | ok found =>
      obtain ⟨args, cs₂⟩ := found
      obtain ⟨hsuffix, -⟩ := ha.spends _ _ rfl
      have hle := hsuffix.length_le
      obtain ⟨r, h⟩ := hnext cs₂ (by omega) (.apply f args)
      exact ⟨r, .call hopening ha h⟩
  · exact ⟨_, .done ho⟩

/-- The loop over arguments goes on with less text, since an argument takes a character at least. That
holds also where no comma is passed, before the closing parenthesis. -/
theorem exists_arguments {cs : List Char} (hexpr : ∃ r, Expression (skipSeparators cs) r)
    (hnext : ∀ cs₁ : List Char, cs₁.length < cs.length → ∀ args, ∃ r, Arguments args cs₁ r)
    (args : List Expr) : ∃ r, Arguments args cs r := by
  by_cases hc : (skipSeparators cs).head? = some ')'
  · obtain ⟨cs₁, hclosing⟩ := List.head?_eq_some_iff.mp hc
    exact ⟨_, .closed hclosing⟩
  obtain ⟨r, he⟩ := hexpr
  cases r with
  | error x => exact ⟨_, .refused hc he⟩
  | ok found =>
    obtain ⟨e, cs₁⟩ := found
    obtain ⟨-, hweight⟩ := he.spends _ _ rfl
    have hpos := e.weight_pos
    have hle := length_skipSeparators_le cs
    have hle₁ := length_skipSeparators_le cs₁
    by_cases hcomma : (skipSeparators cs₁).head? = some ','
    · obtain ⟨cs₂, hm⟩ := List.head?_eq_some_iff.mp hcomma
      obtain ⟨-, hlt⟩ := suffix_and_length_of_skip hm
      obtain ⟨r, h⟩ := hnext cs₂ (by omega) (args ++ [e])
      exact ⟨r, .comma hc he hm h⟩
    by_cases hclosing : (skipSeparators cs₁).head? = some ')'
    · obtain ⟨cs₂, hm⟩ := List.head?_eq_some_iff.mp hclosing
      obtain ⟨r, h⟩ := hnext (skipSeparators cs₁) (by omega) (args ++ [e])
      exact ⟨r, .last hc he hm h⟩
    · exact ⟨_, .unseparated hc he hcomma hclosing⟩

/-- On every text each of the three procedures comes to an end. -/
theorem exists_reading (cs : List Char) : (∃ r, Expression cs r) ∧ (∀ f, ∃ r, Applications f cs r) ∧
    ∀ args, ∃ r, Arguments args cs r := by
  induction hn : cs.length using Nat.strongRecOn generalizing cs with
  | ind n ih =>
    subst hn
    have happlications : ∀ cs₁ : List Char, cs₁.length < cs.length → ∀ f, ∃ r, Applications f cs₁ r :=
      fun cs₁ hlt => (ih _ hlt cs₁ rfl).2.1
    have harguments : ∀ cs₁ : List Char, cs₁.length < cs.length → ∀ args, ∃ r, Arguments args cs₁ r :=
      fun cs₁ hlt => (ih _ hlt cs₁ rfl).2.2
    refine ⟨exists_expression happlications le_rfl, ?_, ?_⟩
    · exact exists_applications (fun cs₁ hlt => harguments cs₁ hlt []) happlications
    -- An argument is read from the same text, so its case comes before the loop over arguments.
    · exact exists_arguments (exists_expression happlications (length_skipSeparators_le cs)) harguments

/-! ## The parser does the same -/

/-- How the parser goes on behind an expression, with the given calls open. -/
def resume (calls : List OpenCall) : Reading Expr → Except ParseError (Expr × List Lexeme)
  | .error x => .error x
  | .ok (e, rest) => readExpression (.continuation e) calls (lexemes rest)

/-- An operator with the arguments that have been read. -/
def applied (f : Expr) : Reading (List Expr) → Reading Expr
  | .error x => .error x
  | .ok (args, rest) => .ok (.apply f args, rest)

/-- An expression has to begin at the start of `cs`. -/
def Awaits (cs : List Char) : Expectation → Prop
  | .operand => True
  | .argument => (skipSeparators cs).head? ≠ some ')'
  | .continuation _ => False

theorem awaits_argument {cs : List Char} (hc : (skipSeparators cs).head? ≠ some ')') :
    Awaits (skipSeparators cs) .argument := by
  rwa [Awaits, skipSeparators_skipSeparators]

theorem lexemes_skipSeparators (cs : List Char) : lexemes (skipSeparators cs) = lexemes cs :=
  lexemes_congr (skipSeparators_skipSeparators cs)

theorem excerptAt_lexemes (cs : List Char) : excerptAt (lexemes cs) = excerpt (skipSeparators cs) := by
  cases hskip : skipSeparators cs with
  | nil =>
    rw [lexemes_of_skips_nil (skips_iff.mpr hskip)]
    rfl
  | cons c start =>
    rw [lexemes_of_skips (skips_iff.mpr hskip)]
    rfl

/-- Where no leaf stands although an expression has to begin, the parser gives up. -/
theorem readExpression_refused {cs : List Char} {expected : Expectation} (h : Awaits cs expected)
    (hl : scanLeaf (skipSeparators cs) = none) (calls : List OpenCall) :
    readExpression expected calls (lexemes cs) =
      .error (.unexpectedInput (excerpt (skipSeparators cs))) := by
  rw [← excerptAt_lexemes]
  cases hls : lexemes cs with
  | nil =>
    cases expected with
    | operand | argument => rfl
    | continuation => exact absurd h id
  | cons l ls =>
    obtain ⟨token, start⟩ := l
    obtain ⟨rest, hstands, -⟩ := stands_of_lexemes_eq_cons hls
    cases token with
    | leaf e =>
      obtain ⟨start', hs, hleaf⟩ := hstands
      rw [skips_iff.mp hs, leaf_iff.mp hleaf] at hl
      cases hl
    | closing =>
      cases expected with
      | operand => rfl
      | argument =>
        refine absurd ?_ h
        rw [skips_iff.mp hstands, List.head?_cons]
      | continuation => exact absurd h id
    | opening | comma | unclosed =>
      cases expected with
      | operand | argument => rfl
      | continuation => exact absurd h id

/-- Behind an expression that no argument list follows, the parser either is outside of all calls, or
it needs a comma or a closing parenthesis. -/
theorem readExpression_continuation {cs : List Char} (ho : (skipSeparators cs).head? ≠ some '(')
    (e : Expr) : readExpression (.continuation e) [] (lexemes cs) = .ok (e, lexemes cs) ∧
      ((skipSeparators cs).head? ≠ some ',' → (skipSeparators cs).head? ≠ some ')' →
        ∀ call calls, readExpression (.continuation e) (call :: calls) (lexemes cs) =
          .error (.expectedCommaOrParen (excerpt (skipSeparators cs)))) := by
  rw [← excerptAt_lexemes]
  cases hls : lexemes cs with
  | nil => exact ⟨rfl, fun _ _ _ _ => rfl⟩
  | cons l ls =>
    obtain ⟨token, start⟩ := l
    obtain ⟨rest, hstands, -⟩ := stands_of_lexemes_eq_cons hls
    have hhead : ∀ c, Grammar.Skips cs (c :: rest) → (skipSeparators cs).head? = some c := by
      intro c hs
      rw [skips_iff.mp hs, List.head?_cons]
    cases token with
    | opening => exact absurd (hhead '(' hstands) ho
    | closing => exact ⟨rfl, fun _ hclosing => absurd (hhead ')' hstands) hclosing⟩
    | comma => exact ⟨rfl, fun hcomma => absurd (hhead ',' hstands) hcomma⟩
    | leaf | unclosed => exact ⟨rfl, fun _ _ _ _ => rfl⟩

/-! ### What stands behind an expression -/

mutual

theorem Expression.rest {cs : List Char} {r : Reading Expr} : Expression cs r →
    ∀ e rest, r = .ok (e, rest) → skipSeparators rest = rest ∧ rest.head? ≠ some '('
  | .refused _ => by
    intro _ _ h
    cases h
  | .leaf _ ha => ha.rest

/-- All separators have been passed, and no argument list follows. -/
theorem Applications.rest {f : Expr} {cs : List Char} {r : Reading Expr} : Applications f cs r →
    ∀ e rest, r = .ok (e, rest) → skipSeparators rest = rest ∧ rest.head? ≠ some '('
  | .done ho => by
    intro e rest h
    cases h
    exact ⟨skipSeparators_skipSeparators cs, ho⟩
  | .refused _ _ => by
    intro _ _ h
    cases h
  | .call _ _ h => h.rest

end

theorem Expression.head?_ne {cs rest : List Char} {e : Expr} (h : Expression cs (.ok (e, rest))) :
    (skipSeparators rest).head? ≠ some '(' := by
  obtain ⟨hskip, hhead⟩ := h.rest e rest rfl
  rwa [hskip]

/-! ### Reading with open calls -/

mutual

/-- Where an expression has to begin, the parser reads it and goes on behind it. -/
theorem Expression.read {cs : List Char} {r : Reading Expr} : Expression cs r →
    ∀ (expected : Expectation) (calls : List OpenCall), Awaits cs expected →
      readExpression expected calls (lexemes cs) = resume calls r
  | .refused hl, _, calls, h => readExpression_refused h hl calls
  | .leaf hl ha, expected, calls, h => by
    have hexpects : ∀ e, expected ≠ .continuation e := by
      rintro e rfl
      exact h
    rw [lexemes_leaf (skips_iff.mpr rfl) (leaf_iff.mpr hl), readExpression_leaf hexpects]
    exact ha.read calls

theorem Applications.read {f : Expr} {cs : List Char} {r : Reading Expr} : Applications f cs r →
    ∀ calls : List OpenCall,
      readExpression (.continuation f) calls (lexemes cs) = resume calls r
  | .done _, calls => by rw [resume, lexemes_skipSeparators]
  | .refused ho ha, calls => by
    rw [lexemes_opening (skips_iff.mpr ho)]
    exact ha.read f calls
  | .call ho ha h, calls => by
    rw [lexemes_opening (skips_iff.mpr ho)]
    exact (ha.read f calls).trans (h.read calls)

/-- The innermost open call holds the arguments that have been read. -/
theorem Arguments.read {args : List Expr} {cs : List Char} {r : Reading (List Expr)} :
    Arguments args cs r → ∀ (f : Expr) (calls : List OpenCall),
      readExpression .argument (⟨f, args.reverse⟩ :: calls) (lexemes cs) =
        resume calls (applied f r)
  | .closed hc, f, calls => by
    rw [lexemes_closing (skips_iff.mpr hc)]
    simp [readExpression, OpenCall.close, applied, resume]
  | .refused hc he, f, calls => by
    rw [← lexemes_skipSeparators, he.read .argument _ (awaits_argument hc)]
    rfl
  | .comma hc he hm h, f, calls => by
    rw [← lexemes_skipSeparators, he.read .argument _ (awaits_argument hc), resume,
      lexemes_comma (skips_iff.mpr hm), ← h.read f calls]
    simp [readExpression, OpenCall.addArg]
  | .last hc he hm h, f, calls => by
    rw [← lexemes_skipSeparators, he.read .argument _ (awaits_argument hc), resume, ← h.read f calls,
      lexemes_skipSeparators, lexemes_closing (skips_iff.mpr hm)]
    simp [readExpression, OpenCall.addArg]
  | .unseparated hc he hcomma hclosing, f, calls => by
    rw [← lexemes_skipSeparators, he.read .argument _ (awaits_argument hc), resume]
    exact (readExpression_continuation he.head?_ne _).2 hcomma hclosing _ _

end

/-! ### One outcome -/

/-- What the parser answers where no call is open. -/
theorem Expression.expression_eq {cs : List Char} {r : Reading Expr} (h : Expression cs r) :
    expression (lexemes cs) = r.map fun found => (found.1, lexemes found.2) := by
  rw [expression, h.read .operand [] trivial]
  cases r with
  | error x => rfl
  | ok found => exact (readExpression_continuation h.head?_ne found.1).1

/-- The lexemes of a text tell what is left of it behind the separators. -/
theorem skipSeparators_eq_of_lexemes_eq {cs cs' : List Char} (h : lexemes cs = lexemes cs') :
    skipSeparators cs = skipSeparators cs' := by
  cases hskip : skipSeparators cs with
  | nil =>
    rw [lexemes_of_skips_nil (skips_iff.mpr hskip)] at h
    exact (skips_iff.mp (skips_nil_of_lexemes_eq_nil h.symm)).symm
  | cons c start =>
    rw [lexemes_of_skips (skips_iff.mpr hskip)] at h
    cases hskip' : skipSeparators cs' with
    | nil =>
      rw [lexemes_of_skips_nil (skips_iff.mpr hskip')] at h
      cases h
    | cons c' start' =>
      rw [lexemes_of_skips (skips_iff.mpr hskip')] at h
      exact congrArg Lexeme.start (List.cons.inj h).1

/-- Reading an expression comes to one outcome only. -/
theorem Expression.unique {cs : List Char} {r r' : Reading Expr} (h : Expression cs r)
    (h' : Expression cs r') : r = r' := by
  have heq := h.expression_eq.symm.trans h'.expression_eq
  cases r with
  | error x =>
    cases r' with
    | error x' =>
      cases heq
      rfl
    | ok found' => cases heq
  | ok found =>
    cases r' with
    | error x' => cases heq
    | ok found' =>
      obtain ⟨e, rest⟩ := found
      obtain ⟨e', rest'⟩ := found'
      obtain ⟨rfl, hlexemes⟩ := Prod.mk.inj (Except.ok.inj heq)
      have hrest := skipSeparators_eq_of_lexemes_eq hlexemes
      rw [(h.rest e rest rfl).1, (h'.rest e rest' rfl).1] at hrest
      rw [hrest]

theorem Expression.parse_eq {s : String} {r : Reading Expr} (h : Expression s.toList r) :
    parse s = program r := by
  rw [parse, h.expression_eq]
  cases r with
  | error x => rfl
  | ok found =>
    obtain ⟨e, rest⟩ := found
    rw [program]
    cases hskip : skipSeparators rest with
    | nil =>
      simp only [Except.map, lexemes_of_skips_nil (skips_iff.mpr hskip), if_true]
    | cons c start =>
      simp only [Except.map, lexemes_of_skips (skips_iff.mpr hskip), if_neg (List.cons_ne_nil c start)]

theorem exists_of_program_eq_ok {r : Reading Expr} {e : Expr} (h : program r = .ok e) :
    ∃ rest, r = .ok (e, rest) := by
  cases r with
  | error x => cases h
  | ok found =>
    obtain ⟨e', rest⟩ := found
    rw [program] at h
    split at h
    · cases h
      exact ⟨rest, rfl⟩
    · cases h

end Descent

/-! ## The end of parsing -/

/-- Reading a source by descent comes to an end, and the parser answers with what it comes to: a tree,
or one of the three errors. So does reading an expression at any place where one has to begin, with any
calls open, and an expression that is read takes at least one character. The leaves of a tree and twice
its applications are together no more than the characters of its source. -/
theorem parse_finishes_and_advances (s : String) :
    (∃ r, Descent.Expression s.toList r ∧ parse s = Descent.program r) ∧
    ((∃ e, parse s = .ok e) ∨ ∃ found, parse s = .error (.unexpectedInput found) ∨
      parse s = .error (.expectedCommaOrParen found) ∨
      parse s = .error (.unexpectedTrailingText found)) ∧
    (∀ cs expected calls, Descent.Awaits cs expected →
      ∃ r, Descent.Expression cs r ∧ (∀ r', Descent.Expression cs r' → r' = r) ∧
        readExpression expected calls (lexemes cs) = Descent.resume calls r) ∧
    (∀ cs e rest, Descent.Expression cs (.ok (e, rest)) → ∃ passed, passed ≠ [] ∧ cs = passed ++ rest) ∧
    ∀ e, parse s = .ok e → e.leaves.length + 2 * e.applications ≤ s.length := by
  obtain ⟨r, hr⟩ := (Descent.exists_reading s.toList).1
  refine ⟨⟨r, hr, hr.parse_eq⟩, ?_, ?_, ?_, ?_⟩
  · cases parse s with
    | ok e => exact .inl ⟨e, rfl⟩
    | error x =>
      refine .inr ⟨x.found, ?_⟩
      cases x with
      | unexpectedInput => exact .inl rfl
      | expectedCommaOrParen => exact .inr (.inl rfl)
      | unexpectedTrailingText => exact .inr (.inr rfl)
  · intro cs expected calls hawaits
    obtain ⟨r', hr'⟩ := (Descent.exists_reading cs).1
    exact ⟨r', hr', fun _ h => h.unique hr', hr'.read expected calls hawaits⟩
  · intro cs e rest h
    obtain ⟨⟨passed, rfl⟩, hle⟩ := h.spends e rest rfl
    refine ⟨passed, ?_, rfl⟩
    rintro rfl
    have hpos := e.weight_pos
    rw [List.nil_append] at hle
    omega
  · intro e he
    rw [hr.parse_eq] at he
    obtain ⟨rest, rfl⟩ := Descent.exists_of_program_eq_ok he
    obtain ⟨-, hle⟩ := hr.spends e rest rfl
    rw [Expr.weight, String.length_toList] at hle
    omega

end Syntax

end Egg
