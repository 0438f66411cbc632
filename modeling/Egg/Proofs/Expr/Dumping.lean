import Egg.Proofs.Expr.Equality
import Egg.Proofs.Number.Literal
import Egg.Proofs.Text.Quoting
import Mathlib

/-!
# The dump of a tree tells the tree

Both ways to write a document put the same brackets, labels and atoms in the same order. They differ
in the spacing, which is all that a `Layout` gives, together with what makes the spacing readable: a
list ends where no further item begins. From this alone a tree can be read off the start of its
written dump (`Layout.writeTo_toDump_inj`): the first letters tell the kind of a node, a quoted text
or a numeral ends by itself, and the rest is read in the same way. So trees with equal dumps,
compact or pretty, differ at most in the patterns that stand for no value (`Expr.dump_eq_dump_iff`).
-/

namespace Egg

open Dump (indent)

/-- Induction over documents, with a hypothesis for each item of a group. -/
@[elab_as_elim]
theorem Dump.induction {motive : Dump → Prop} (atom : ∀ text, motive (.atom text))
    (field : ∀ label content, motive content → motive (.field label content))
    (group : ∀ b items, (∀ d ∈ items, motive d) → motive (.group b items)) : ∀ d, motive d
  | .atom text => atom text
  | .field label content => field label content (Dump.induction atom field group content)
  | .group b items => group b items fun d _ => Dump.induction atom field group d

theorem Expr.toDumps_eq_map (es : List Expr) : toDumps es = es.map toDump := by
  induction es with
  | nil => rfl
  | cons e es ih => rw [toDumps, ih, List.map_cons]

/-! ## Layouts -/

/-- The spacing of a way to write documents. -/
structure Layout where
  /-- How an atom is written on a level. -/
  atom : Nat → List Char → List Char
  /-- What stands between the brackets of an empty group. -/
  gap : Bracket → List Char
  /-- What stands between the opening bracket of a group on a level and the first item. -/
  before : Bracket → Nat → List Char
  /-- What stands between two items on a level. -/
  between : Nat → List Char
  /-- What stands between the last item of a group on a level and the closing bracket. -/
  after : Bracket → Nat → List Char
  atom_eq : ∀ {level text}, '\n' ∉ text → atom level text = text
  /-- A list with an item can be told from an empty one. -/
  before_ne : ∀ {level cs cs'}, cs.head? ≠ some ']' →
    before .square level ++ cs ≠ gap .square ++ ']' :: cs'
  /-- A further item can be told from the end of the list. -/
  between_ne : ∀ {level cs cs'}, between (level + 1) ++ cs ≠ after .square level ++ ']' :: cs'
  /-- A numeral in parentheses can be told from what follows it. -/
  after_round : ∀ {name level cs}, ∀ c ∈ (after (.round name) level ++ ')' :: cs).head?,
    c = ',' ∨ c = ')'

namespace Layout

mutual

/-- The document in this layout, followed by `rest`. -/
def writeTo (L : Layout) (level : Nat) : Dump → List Char → List Char
  | .atom text, rest => L.atom level text ++ rest
  | .field label content, rest => label.toList ++ ':' :: ' ' :: L.writeTo level content rest
  | .group b [], rest => b.opening ++ (L.gap b ++ b.closing :: rest)
  | .group b (d :: ds), rest =>
    b.opening ++ (L.before b level ++
      L.writeTo (level + 1) d (L.moreTo (level + 1) ds (L.after b level ++ b.closing :: rest)))

/-- The items behind the first one, followed by `rest`. -/
def moreTo (L : Layout) (level : Nat) : List Dump → List Char → List Char
  | [], rest => rest
  | d :: ds, rest => L.between level ++ L.writeTo level d (L.moreTo level ds rest)

end

/-- Everything on one line. -/
def compact : Layout where
  atom _ text := text
  gap b := b.padding ++ b.padding
  before b _ := b.padding
  between _ := [',', ' ']
  after b _ := b.padding
  atom_eq _ := rfl
  before_ne hcs heq := hcs (congrArg List.head? heq)
  between_ne heq := by cases (List.cons.inj heq).1
  after_round c hc := .inr (Option.mem_some.mp hc).symm

theorem indent_succ (level : Nat) : indent (level + 1) = indent level ++ [' ', ' ', ' ', ' '] := by
  rw [indent, indent, Nat.mul_succ, ← List.replicate_append_replicate]
  rfl

/-- Each item on a line of its own. -/
def pretty : Layout where
  atom level text := text.flatMap fun c => if c = '\n' then c :: indent level else [c]
  gap _ := []
  before _ level := '\n' :: indent (level + 1)
  between level := ',' :: '\n' :: indent level
  after _ level := ',' :: '\n' :: indent level
  atom_eq := by
    intro level text h
    have hone : ∀ c ∈ text, (if c = '\n' then c :: indent level else [c]) = [c] := by
      intro c hc
      rw [if_neg]
      rintro rfl
      exact h hc
    rw [List.flatMap_congr hone, List.flatMap_singleton']
  before_ne _ heq := by cases (List.cons.inj heq).1
  between_ne heq := by
    -- The item is indented further than the bracket.
    rw [indent_succ] at heq
    simp at heq
  after_round c hc := .inl (Option.mem_some.mp hc).symm

theorem writeTo_compact (d : Dump) (level : Nat) (rest : List Char) :
    compact.writeTo level d rest = d.compactTo rest := by
  induction d using Dump.induction generalizing level rest with
  | atom text => rfl
  | field label content ih => rw [writeTo, ih, Dump.compactTo]
  | group b items ih =>
    have hitems : ∀ d ds, (∀ d' ∈ d :: ds, d' ∈ items) → ∀ rest,
        compact.writeTo (level + 1) d (compact.moreTo (level + 1) ds rest) =
          Dump.compactItemsTo (d :: ds) rest := by
      intro d ds hmem rest
      induction ds generalizing d with
      | nil => exact ih d (hmem d List.mem_cons_self) _ _
      | cons d' ds ihds =>
        rw [ih d (hmem d List.mem_cons_self), moreTo,
          ihds d' fun x hx => hmem x (List.mem_cons_of_mem d hx)]
        rfl
    cases items with
    | nil => simp [writeTo, Dump.compactTo, Dump.compactItemsTo, compact]
    | cons d ds =>
      rw [writeTo, hitems d ds (fun _ => id), Dump.compactTo]
      rfl

theorem writeTo_pretty (d : Dump) (level : Nat) (rest : List Char) :
    pretty.writeTo level d rest = d.prettyTo level rest := by
  induction d using Dump.induction generalizing level rest with
  | atom text => rfl
  | field label content ih => rw [writeTo, ih, Dump.prettyTo]
  | group b items ih =>
    have hmore : ∀ ds, (∀ d ∈ ds, d ∈ items) → ∀ rest,
        pretty.moreTo (level + 1) ds (',' :: '\n' :: rest) =
          ',' :: '\n' :: Dump.prettyItemsTo (level + 1) ds rest := by
      intro ds hmem rest
      induction ds with
      | nil => rfl
      | cons d ds ihds =>
        rw [moreTo, ihds fun x hx => hmem x (List.mem_cons_of_mem d hx),
          ih d (hmem d List.mem_cons_self)]
        rfl
    cases items with
    | nil => rfl
    | cons d ds =>
      change b.opening ++ (_ ++ pretty.writeTo (level + 1) d
        (pretty.moreTo (level + 1) ds (',' :: '\n' :: (indent level ++ b.closing :: rest)))) = _
      rw [hmore ds fun x hx => List.mem_cons_of_mem d hx, ih d List.mem_cons_self]
      rfl

/-- What can be told from a document in every layout can be told from it in both. -/
theorem of_written {P : Prop} {d d' : Dump}
    (h : ∀ L : Layout, L.writeTo 0 d [] = L.writeTo 0 d' [] → P) :
    (d.compact = d'.compact → P) ∧ (d.pretty = d'.pretty → P) := by
  constructor
  · intro heq
    refine h compact ?_
    rw [writeTo_compact, writeTo_compact]
    exact heq
  · intro heq
    refine h pretty ?_
    rw [writeTo_pretty, writeTo_pretty]
    exact heq

/-! ## Reading a dump -/

variable {L : Layout} {level : Nat} {r r' : List Char}

theorem writeTo_atom {text : List Char} (h : '\n' ∉ text) :
    L.writeTo level (.atom text) r = text ++ r := by
  rw [writeTo, L.atom_eq h]

/-- Around a single item, two dumps with the same brackets have the same spacing. -/
theorem writeTo_singleton_inj {b : Bracket} {d d' : Dump}
    (h : L.writeTo level (.group b [d]) r = L.writeTo level (.group b [d']) r') :
    L.writeTo (level + 1) d (L.after b level ++ b.closing :: r) =
      L.writeTo (level + 1) d' (L.after b level ++ b.closing :: r') := by
  simpa [writeTo, moreTo] using h

theorem writeTo_literal_inj {m n : Number} {name : String}
    (h : L.writeTo (level + 1) (.atom m.literalDump) (L.after (.round name) level ++ ')' :: r) =
      L.writeTo (level + 1) (.atom n.literalDump) (L.after (.round name) level ++ ')' :: r')) :
    m.Identical n ∧ r = r' := by
  have hclass : ∀ {k : Number}, ∀ c ∈ k.literalDump, (c != ',' && c != ')') = true := by
    intro k c hc
    obtain ⟨hcomma, hparen, -⟩ := Number.not_mark_of_mem_literalDump hc
    simp [hcomma, hparen]
  have hstop : ∀ x : List Char, ∀ c ∈ (L.after (.round name) level ++ ')' :: x).head?,
      (c != ',' && c != ')') = false := by
    intro x c hc
    rcases L.after_round c hc with rfl | rfl
    · rfl
    · rfl
  have hnewline : ∀ k : Number, '\n' ∉ k.literalDump :=
    fun k hmem => (Number.not_mark_of_mem_literalDump hmem).2.2 rfl
  rw [writeTo_atom (hnewline m), writeTo_atom (hnewline n)] at h
  obtain ⟨hdump, hrest⟩ := Syntax.append_inj_of_class hclass hclass (hstop r) (hstop r') h
  exact ⟨Number.literalDump_eq_literalDump_iff.mp hdump, by simpa using hrest⟩

theorem writeTo_quoted_inj {s t : String}
    (h : L.writeTo level (.atom (Text.quoted s)) r = L.writeTo level (.atom (Text.quoted t)) r') :
    s = t ∧ r = r' := by
  rw [writeTo_atom (Text.newline_not_mem_quoted s), writeTo_atom (Text.newline_not_mem_quoted t)]
    at h
  exact Text.quoted_append_inj h

theorem writeTo_name_inj {name name' : Name}
    (h : L.writeTo level name.toDump r = L.writeTo level name'.toDump r') :
    name = name' ∧ r = r' := by
  have hnewline : ∀ x : Name, '\n' ∉ "Name(".toList ++ (Text.quoted x ++ [')']) := by
    intro x hmem
    have hquoted : '\n' ∈ Text.quoted x := by simpa using hmem
    exact Text.newline_not_mem_quoted x hquoted
  rw [Name.toDump, Name.toDump, writeTo_atom (hnewline name), writeTo_atom (hnewline name')] at h
  simp only [List.append_assoc, List.append_right_inj] at h
  obtain ⟨hname, hrest⟩ := Text.quoted_append_inj h
  exact ⟨hname, (List.cons.inj hrest).2⟩

theorem head?_writeTo_toDump (e : Expr) :
    (L.writeTo level e.toDump r).head? ≠ some ']' := by
  cases e <;> simp [Expr.toDump, writeTo, Bracket.opening]

section Lists

variable {α : Type} {f : α → Dump} {R : α → α → Prop} {as bs : List α}

/-- The items behind the first one are read one after the other, up to the closing bracket. -/
theorem moreTo_map_inj
    (hread : ∀ a ∈ as, ∀ b r r', L.writeTo (level + 1) (f a) r = L.writeTo (level + 1) (f b) r' →
      R a b ∧ r = r')
    (h : L.moreTo (level + 1) (as.map f) (L.after .square level ++ ']' :: r) =
      L.moreTo (level + 1) (bs.map f) (L.after .square level ++ ']' :: r')) :
    List.Forall₂ R as bs ∧ r = r' := by
  induction as generalizing bs with
  | nil =>
    cases bs with
    | nil =>
      have hrest : r = r' := by simpa [moreTo] using h
      exact ⟨.nil, hrest⟩
    | cons b bs => exact absurd h.symm L.between_ne
  | cons a as ih =>
    cases bs with
    | nil => exact absurd h L.between_ne
    | cons b bs =>
      rw [List.map_cons, List.map_cons, moreTo, moreTo, List.append_right_inj] at h
      obtain ⟨hab, hmore⟩ := hread a List.mem_cons_self b _ _ h
      obtain ⟨hall, hrest⟩ := ih (fun x hx => hread x (List.mem_cons_of_mem a hx)) hmore
      exact ⟨.cons hab hall, hrest⟩

/-- A list is read item by item, if no item begins like the closing bracket. -/
theorem writeTo_map_inj (hhead : ∀ a r, (L.writeTo (level + 1) (f a) r).head? ≠ some ']')
    (hread : ∀ a ∈ as, ∀ b r r', L.writeTo (level + 1) (f a) r = L.writeTo (level + 1) (f b) r' →
      R a b ∧ r = r')
    (h : L.writeTo level (.group .square (as.map f)) r =
      L.writeTo level (.group .square (bs.map f)) r') : List.Forall₂ R as bs ∧ r = r' := by
  cases as with
  | nil =>
    cases bs with
    | nil =>
      have hrest : r = r' := by simpa [writeTo] using h
      exact ⟨.nil, hrest⟩
    | cons b bs =>
      rw [List.map_nil, List.map_cons, writeTo, writeTo, List.append_right_inj] at h
      exact absurd h.symm (L.before_ne (hhead b _))
  | cons a as =>
    cases bs with
    | nil =>
      rw [List.map_nil, List.map_cons, writeTo, writeTo, List.append_right_inj] at h
      exact absurd h (L.before_ne (hhead a _))
    | cons b bs =>
      rw [List.map_cons, List.map_cons, writeTo, writeTo, List.append_right_inj,
        List.append_right_inj] at h
      obtain ⟨hab, hmore⟩ := hread a List.mem_cons_self b _ _ h
      obtain ⟨hall, hrest⟩ := moreTo_map_inj (fun x hx => hread x (List.mem_cons_of_mem a hx)) hmore
      exact ⟨.cons hab hall, hrest⟩

end Lists

/-- A tree can be told from what follows its dump, in any layout. -/
theorem writeTo_toDump_inj {a b : Expr}
    (h : L.writeTo level a.toDump r = L.writeTo level b.toDump r') :
    a.SameUpTo Number.Identical b ∧ r = r' := by
  -- Trees of different kinds are told apart by the names before the first two brackets.
  induction a using Expr.induction generalizing b level r r' with
  | number m =>
    cases b with
    | number n =>
      obtain ⟨hnumber, hrest⟩ := writeTo_literal_inj (writeTo_singleton_inj (writeTo_singleton_inj h))
      exact ⟨.number hnumber, by simpa using hrest⟩
    | text | word | apply => simp [Expr.toDump, writeTo, Bracket.opening] at h
  | text s =>
    cases b with
    | text t =>
      obtain ⟨rfl, hrest⟩ := writeTo_quoted_inj (writeTo_singleton_inj (writeTo_singleton_inj h))
      exact ⟨.text s, by simpa using hrest⟩
    | number | word | apply => simp [Expr.toDump, writeTo, Bracket.opening] at h
  | word name =>
    cases b with
    | word name' =>
      obtain ⟨rfl, hrest⟩ := writeTo_name_inj (writeTo_singleton_inj h)
      exact ⟨.word name, by simpa using hrest⟩
    | number | text | apply => simp [Expr.toDump, writeTo, Bracket.opening] at h
  | apply f as ihf ihas =>
    cases b with
    | apply g bs =>
      simp only [Expr.toDump, Expr.toDumps_eq_map, writeTo, moreTo, List.append_right_inj,
        List.cons.injEq, true_and] at h
      obtain ⟨hf, hargs⟩ := ihf h
      simp only [List.append_right_inj, List.cons.injEq, true_and] at hargs
      obtain ⟨hall, hrest⟩ := writeTo_map_inj (fun a r => head?_writeTo_toDump a)
        (fun a ha b r r' => ihas a ha) hargs
      exact ⟨Expr.sameUpTo_apply.mpr ⟨hf, hall⟩, by simpa using hrest⟩
    | number | text | word => simp [Expr.toDump, writeTo, Bracket.opening] at h

end Layout

namespace Expr

variable {a b : Expr}

theorem SameUpTo.toDump_eq (h : a.SameUpTo Number.Identical b) : a.toDump = b.toDump := by
  induction h with
  | number h => rw [toDump, toDump, Number.literalDump_eq_literalDump_iff.mpr h]
  | text s => rfl
  | word name => rfl
  | @apply f g as bs _ hlength _ ihf ihargs =>
    have hargs : toDumps as = toDumps bs := by
      rw [toDumps_eq_map, toDumps_eq_map, ← List.forall₂_eq_eq_eq, List.forall₂_map_left_iff,
        List.forall₂_map_right_iff]
      exact List.forall₂_iff_zip.mpr ⟨hlength, fun {x y} hxy => ihargs (x, y) hxy⟩
    rw [toDump, toDump, ihf, hargs]

/-- The dump of a tree, on one line or over several, tells its shape, its texts and words, and its
numbers with the signs of zeros. Only the patterns that stand for no value look alike. -/
theorem dump_eq_dump_iff (a b : Expr) :
    (a.toDump.compact = b.toDump.compact ↔ a.SameUpTo Number.Identical b) ∧
      (a.toDump.pretty = b.toDump.pretty ↔ a.SameUpTo Number.Identical b) := by
  obtain ⟨hcompact, hpretty⟩ := Layout.of_written fun L h => (Layout.writeTo_toDump_inj h).1
  constructor
  · refine ⟨hcompact, fun h => ?_⟩
    rw [h.toDump_eq]
  · refine ⟨hpretty, fun h => ?_⟩
    rw [h.toDump_eq]

end Expr

end Egg
