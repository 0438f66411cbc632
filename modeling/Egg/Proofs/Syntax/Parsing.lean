import Egg.Proofs.Syntax.Scanning
import Egg.Syntax.Parser

/-!
# The parser accepts the grammar

The parser reads lexemes and keeps the open calls in a list, where the grammar nests. Both directions
go over what is left of the source: an expression of the grammar takes the parser over its lexemes
whatever calls are open (`Expression.read`), and what the parser still does from a point on is what
the open calls demand there (`readExpression_sound`).
-/

namespace Egg.Syntax

open Grammar

/-! ## Lexemes -/

theorem lexemesFrom_eq_append (read : List Lexeme) (cs : List Char) :
    lexemesFrom read cs = read.reverse ++ lexemes cs := by
  induction hn : cs.length using Nat.strongRecOn generalizing read cs with
  | ind n ih =>
    subst hn
    rw [lexemes, lexemesFrom, lexemesFrom]
    split
    · simp
    · next c rest hskip =>
      have hlt : (readToken c rest).2.length < cs.length := by
        have hle := length_skipSeparators_le cs
        rw [hskip, List.length_cons] at hle
        have htoken := length_readToken_le c rest
        omega
      rw [ih _ hlt (⟨(readToken c rest).1, c :: rest⟩ :: read) _ rfl,
        ih _ hlt [⟨(readToken c rest).1, c :: rest⟩] _ rfl]
      simp

theorem lexemes_of_skips_nil {cs : List Char} (h : Skips cs []) : lexemes cs = [] := by
  rw [lexemes, lexemesFrom]
  split
  · rfl
  · next hskip =>
    rw [skips_iff.mp h] at hskip
    cases hskip

theorem lexemes_of_skips {cs rest : List Char} {c : Char} (h : Skips cs (c :: rest)) :
    lexemes cs = ⟨(readToken c rest).1, c :: rest⟩ :: lexemes (readToken c rest).2 := by
  rw [lexemes, lexemesFrom]
  split
  · next hskip =>
    rw [skips_iff.mp h] at hskip
    cases hskip
  · next c' rest' hskip =>
    rw [skips_iff.mp h] at hskip
    cases hskip
    rw [lexemesFrom_eq_append]
    rfl

/-- The lexemes of a text do not depend on the separators it begins with. -/
theorem lexemes_congr {cs cs' : List Char} (h : skipSeparators cs = skipSeparators cs') :
    lexemes cs = lexemes cs' := by
  cases hskip : skipSeparators cs' with
  | nil =>
    rw [lexemes_of_skips_nil (skips_iff.mpr hskip),
      lexemes_of_skips_nil (skips_iff.mpr (h.trans hskip))]
  | cons c start =>
    rw [lexemes_of_skips (skips_iff.mpr hskip), lexemes_of_skips (skips_iff.mpr (h.trans hskip))]

theorem lexemes_opening {cs rest : List Char} (h : Skips cs ('(' :: rest)) :
    lexemes cs = ⟨.opening, '(' :: rest⟩ :: lexemes rest :=
  lexemes_of_skips h

theorem lexemes_closing {cs rest : List Char} (h : Skips cs (')' :: rest)) :
    lexemes cs = ⟨.closing, ')' :: rest⟩ :: lexemes rest :=
  lexemes_of_skips h

theorem lexemes_comma {cs rest : List Char} (h : Skips cs (',' :: rest)) :
    lexemes cs = ⟨.comma, ',' :: rest⟩ :: lexemes rest :=
  lexemes_of_skips h

/-- No leaf begins with a punctuation mark. -/
theorem Grammar.Leaf.head {cs rest : List Char} {e : Expr} (h : Leaf cs e rest) :
    ∃ c cs', cs = c :: cs' ∧ c ≠ '(' ∧ c ≠ ')' ∧ c ≠ ',' := by
  cases h with
  | text => exact ⟨'"', _, rfl, by decide⟩
  | @number digits rest hnumber =>
    cases digits with
    | nil => exact absurd rfl hnumber.ne_nil
    | cons c digits =>
      have hdigit := hnumber.digit c List.mem_cons_self
      refine ⟨c, _, rfl, ?_, ?_, ?_⟩
      all_goals
        rintro rfl
        cases hdigit
  | @word w rest hword =>
    cases w with
    | nil => exact absurd rfl hword.ne_nil
    | cons c w =>
      have hchar := hword.wordChar c List.mem_cons_self
      refine ⟨c, _, rfl, ?_, ?_, ?_⟩
      all_goals
        rintro rfl
        cases hchar

theorem readToken_leaf {c : Char} {cs rest : List Char} {e : Expr} (h : Leaf (c :: cs) e rest) :
    readToken c cs = (.leaf e, rest) := by
  obtain ⟨d, cs', hcons, hopening, hclosing, hcomma⟩ := h.head
  obtain ⟨rfl, rfl⟩ := List.cons.inj hcons
  simp [readToken, hopening, hclosing, hcomma, leaf_iff.mp h]

theorem lexemes_leaf {cs start rest : List Char} {e : Expr} (hs : Skips cs start)
    (hl : Leaf start e rest) : lexemes cs = ⟨.leaf e, start⟩ :: lexemes rest := by
  obtain ⟨c, cs', rfl, -⟩ := hl.head
  rw [lexemes_of_skips hs, readToken_leaf hl]

/-- What a token says about the text it was read from, up to the rest behind it. -/
def Token.Stands : Token → List Char → List Char → Prop
  | .leaf e, cs, rest => ∃ start, Skips cs start ∧ Leaf start e rest
  | .opening, cs, rest => Skips cs ('(' :: rest)
  | .closing, cs, rest => Skips cs (')' :: rest)
  | .comma, cs, rest => Skips cs (',' :: rest)
  | .unclosed, _, _ => True

/-- The first lexeme of a text stands at its start, and the other ones are those of the rest. -/
theorem stands_of_lexemes_eq_cons {cs : List Char} {l : Lexeme} {ls : List Lexeme}
    (h : lexemes cs = l :: ls) : ∃ rest, l.token.Stands cs rest ∧ ls = lexemes rest := by
  cases hskip : skipSeparators cs with
  | nil =>
    rw [lexemes_of_skips_nil (skips_iff.mpr hskip)] at h
    cases h
  | cons c start =>
    have hs := skips_iff.mpr hskip
    rw [lexemes_of_skips hs] at h
    cases h
    refine ⟨_, ?_, rfl⟩
    unfold readToken
    split
    · next hc => exact hc ▸ hs
    · split
      · next hc => exact hc ▸ hs
      · split
        · next hc => exact hc ▸ hs
        · split
          · next hl => exact ⟨_, hs, leaf_iff.mpr hl⟩
          · trivial

theorem skips_nil_of_lexemes_eq_nil {cs : List Char} (h : lexemes cs = []) : Skips cs [] := by
  cases hskip : skipSeparators cs with
  | nil => exact skips_iff.mpr hskip
  | cons c start =>
    rw [lexemes_of_skips (skips_iff.mpr hskip)] at h
    cases h

/-! ## Every expression is read -/

/-- Where an expression may begin, a leaf is one, so far. -/
theorem readExpression_leaf {expected : Expectation} {calls : List OpenCall} {e : Expr}
    {start : List Char} {ls : List Lexeme} (h : ∀ e, expected ≠ .continuation e) :
    readExpression expected calls (⟨.leaf e, start⟩ :: ls) =
      readExpression (.continuation e) calls ls := by
  cases expected with
  | operand => rfl
  | argument => rfl
  | continuation e => exact absurd rfl (h e)

mutual

theorem Grammar.Expression.read {cs rest : List Char} {e : Expr} :
    Expression cs e rest → ∀ (expected : Expectation) (calls : List OpenCall),
      (∀ e, expected ≠ .continuation e) →
        readExpression expected calls (lexemes cs) =
          readExpression (.continuation e) calls (lexemes rest)
  | .mk hs hl ha, expected, calls, h => by
    rw [lexemes_leaf hs hl, readExpression_leaf h]
    exact ha.read calls

theorem Grammar.Applications.read {cs rest : List Char} {f e : Expr} :
    Applications f cs e rest → ∀ calls : List OpenCall,
      readExpression (.continuation f) calls (lexemes cs) =
        readExpression (.continuation e) calls (lexemes rest)
  | .nil, calls => rfl
  | .cons ho ha hc h, calls => by
    rw [lexemes_opening ho]
    exact (ha.read hc calls).trans (h.read calls)

theorem Grammar.Arguments.read {f : Expr} {args : List Expr} {cs rest cs' : List Char} :
    Arguments cs args rest → Skips rest (')' :: cs') → ∀ calls : List OpenCall,
      readExpression .argument (⟨f, []⟩ :: calls) (lexemes cs) =
        readExpression (.continuation (.apply f args)) calls (lexemes cs')
  | .nil, hc, calls => by
    rw [lexemes_closing hc]
    rfl
  | .cons he h, hc, calls => by
    rw [he.read .argument _ (by simp), h.read hc ⟨f, []⟩ calls]
    rfl

theorem Grammar.MoreArguments.read {e : Expr} {es : List Expr} {cs rest cs' : List Char} :
    MoreArguments cs es rest → Skips rest (')' :: cs') → ∀ (call : OpenCall) (calls : List OpenCall),
      readExpression (.continuation e) (call :: calls) (lexemes cs) =
        readExpression (.continuation (.apply call.operator (call.args.reverse ++ e :: es))) calls
          (lexemes cs')
  | .nil, hc, call, calls => by
    rw [lexemes_closing hc]
    simp [readExpression, OpenCall.close, OpenCall.addArg]
  | .trailing hcomma, hc, call, calls => by
    rw [lexemes_comma hcomma, readExpression, lexemes_closing hc]
    simp [readExpression, OpenCall.close, OpenCall.addArg]
  | .cons hcomma he h, hc, call, calls => by
    rw [lexemes_comma hcomma, readExpression, he.read .argument _ (by simp),
      h.read hc (call.addArg e) calls]
    simp [OpenCall.addArg]

end

/-! ## What is read is an expression -/

/-- `Closes calls e cs e' rest`: where `e` is complete and `cs` is left, the text goes on with what the
open calls still lack, and then `e'` is complete and `rest` is left. -/
def Closes : List OpenCall → Expr → List Char → Expr → List Char → Prop
  | [], e, cs, e', rest => e = e' ∧ cs = rest
  | call :: calls, e, cs, e', rest => ∃ es cs₁ cs₂ f cs₃,
    MoreArguments cs es cs₁ ∧ Skips cs₁ (')' :: cs₂) ∧
      Applications (.apply call.operator (call.args.reverse ++ e :: es)) cs₂ f cs₃ ∧
        Closes calls f cs₃ e' rest

/-- What the text `cs` is if the parser, standing before it, completes `e'` and leaves `rest`. -/
def Expectation.Derives : Expectation → List OpenCall → List Char → Expr → List Char → Prop
  | .operand, calls, cs, e', rest => ∃ e cs₁, Expression cs e cs₁ ∧ Closes calls e cs₁ e' rest
  | .argument, calls, cs, e', rest =>
    (∃ call outer cs₁ e cs₂, calls = call :: outer ∧ Skips cs (')' :: cs₁) ∧
      Applications call.close cs₁ e cs₂ ∧ Closes outer e cs₂ e' rest) ∨
    ∃ e cs₁, Expression cs e cs₁ ∧ Closes calls e cs₁ e' rest
  | .continuation f, calls, cs, e', rest =>
    ∃ e cs₁, Applications f cs e cs₁ ∧ Closes calls e cs₁ e' rest

section Steps

variable {e e' : Expr} {call : OpenCall} {calls : List OpenCall} {cs cs₁ rest : List Char}

theorem Expectation.Derives.leaf {start : List Char} (hs : Skips cs start) (hl : Leaf start e cs₁)
    (h : (continuation e).Derives calls cs₁ e' rest) : operand.Derives calls cs e' rest := by
  obtain ⟨f, cs₂, ha, hclose⟩ := h
  exact ⟨f, cs₂, .mk hs hl ha, hclose⟩

theorem Expectation.Derives.opening (ho : Skips cs ('(' :: cs₁))
    (h : argument.Derives (⟨e, []⟩ :: calls) cs₁ e' rest) :
    (continuation e).Derives calls cs e' rest := by
  rcases h with ⟨call, outer, cs₂, f, cs₃, heq, hc, ha, hclose⟩ | ⟨a, cs₂, he, hclose⟩
  · cases heq
    exact ⟨f, cs₃, .cons ho .nil hc ha, hclose⟩
  · obtain ⟨es, cs₃, cs₄, f, cs₅, hmore, hc, ha, hclose⟩ := hclose
    exact ⟨f, cs₅, .cons ho (.cons he hmore) hc ha, hclose⟩

theorem Expectation.Derives.closing (hc : Skips cs (')' :: cs₁))
    (h : (continuation (call.addArg e).close).Derives calls cs₁ e' rest) :
    (continuation e).Derives (call :: calls) cs e' rest := by
  obtain ⟨f, cs₂, ha, hclose⟩ := h
  rw [OpenCall.close, OpenCall.addArg, List.reverse_cons] at ha
  exact ⟨e, cs, .nil, [], cs, cs₁, f, cs₂, .nil, hc, ha, hclose⟩

theorem Expectation.Derives.comma (hcomma : Skips cs (',' :: cs₁))
    (h : argument.Derives (call.addArg e :: calls) cs₁ e' rest) :
    (continuation e).Derives (call :: calls) cs e' rest := by
  rcases h with ⟨call', outer, cs₂, f, cs₃, heq, hc, ha, hclose⟩ | ⟨a, cs₂, he, hclose⟩
  · cases heq
    rw [OpenCall.close, OpenCall.addArg, List.reverse_cons] at ha
    exact ⟨e, cs, .nil, [], cs₁, cs₂, f, cs₃, .trailing hcomma, hc, ha, hclose⟩
  · obtain ⟨es, cs₃, cs₄, f, cs₅, hmore, hc, ha, hclose⟩ := hclose
    rw [OpenCall.addArg, List.reverse_cons, List.append_assoc] at ha
    exact ⟨e, cs, .nil, a :: es, cs₃, cs₄, f, cs₅, .cons hcomma he hmore, hc, ha, hclose⟩

end Steps

/-- From every point on, a parser that completes an expression has read what was expected there and
what the open calls demanded. -/
theorem readExpression_sound {expected : Expectation} {calls : List OpenCall} {cs : List Char}
    {ls : List Lexeme} {e : Expr} (h : readExpression expected calls (lexemes cs) = .ok (e, ls)) :
    ∃ rest, expected.Derives calls cs e rest ∧ ls = lexemes rest := by
  -- The induction is on the lexemes, each of which takes the parser one step further.
  induction hls : lexemes cs generalizing expected calls cs with
  | nil =>
    rw [hls] at h
    match expected, calls with
    | .operand, _ => cases h
    | .argument, _ => cases h
    | .continuation f, _ :: _ => cases h
    | .continuation f, [] =>
      obtain ⟨rfl, rfl⟩ : f = e ∧ [] = ls := by simpa [readExpression] using h
      exact ⟨cs, ⟨f, cs, .nil, rfl, rfl⟩, hls.symm⟩
  | cons l ls' ih =>
    obtain ⟨cs₁, hstands, rfl⟩ := stands_of_lexemes_eq_cons hls
    rw [hls] at h
    obtain ⟨token, start⟩ := l
    match expected, token, calls with
    | .operand, .leaf _, _ =>
      obtain ⟨start, hs, hl⟩ := hstands
      obtain ⟨rest, hderives, hrest⟩ := ih h rfl
      exact ⟨rest, hderives.leaf hs hl, hrest⟩
    | .argument, .leaf _, _ =>
      obtain ⟨start, hs, hl⟩ := hstands
      obtain ⟨rest, hderives, hrest⟩ := ih h rfl
      exact ⟨rest, .inr (hderives.leaf hs hl), hrest⟩
    | .argument, .closing, call :: outer =>
      obtain ⟨rest, ⟨f, cs₂, ha, hclose⟩, hrest⟩ := ih h rfl
      exact ⟨rest, .inl ⟨call, outer, cs₁, f, cs₂, rfl, hstands, ha, hclose⟩, hrest⟩
    | .continuation f, .opening, _ =>
      obtain ⟨rest, hderives, hrest⟩ := ih h rfl
      exact ⟨rest, hderives.opening hstands, hrest⟩
    | .continuation f, .closing, call :: outer =>
      obtain ⟨rest, hderives, hrest⟩ := ih h rfl
      exact ⟨rest, hderives.closing hstands, hrest⟩
    | .continuation f, .comma, call :: outer =>
      obtain ⟨rest, hderives, hrest⟩ := ih h rfl
      exact ⟨rest, hderives.comma hstands, hrest⟩
    | .continuation f, .leaf _, [] | .continuation f, .closing, []
    | .continuation f, .comma, [] | .continuation f, .unclosed, [] =>
      obtain ⟨rfl, rfl⟩ : f = e ∧ _ = ls := by simpa [readExpression] using h
      exact ⟨cs, ⟨f, cs, .nil, rfl, rfl⟩, hls.symm⟩

/-! ## Programs -/

theorem parse_of_program {s : String} {e : Expr} (h : Program s.toList e) : parse s = .ok e := by
  obtain ⟨rest, he, hrest⟩ := h
  have hread : expression (lexemes s.toList) = .ok (e, []) := by
    rw [expression, he.read .operand [] (by simp), lexemes_of_skips_nil hrest]
    rfl
  rw [parse, hread]

theorem program_of_parse {s : String} {e : Expr} (h : parse s = .ok e) : Program s.toList e := by
  rw [parse] at h
  split at h
  · cases h
  · next hread =>
    cases h
    obtain ⟨rest, ⟨f, cs, he, rfl, rfl⟩, hrest⟩ := readExpression_sound hread
    exact ⟨cs, he, skips_nil_of_lexemes_eq_nil hrest.symm⟩
  · cases h

/-- The parser accepts exactly the programs of the grammar, and gives the tree that the grammar
assigns. -/
theorem parse_eq_ok_iff (s : String) (e : Expr) : parse s = .ok e ↔ Program s.toList e :=
  ⟨program_of_parse, parse_of_program⟩

end Egg.Syntax
