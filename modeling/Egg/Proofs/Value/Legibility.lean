import Egg.Proofs.Eval.Likeness
import Egg.Proofs.Number.Denotation
import Egg.Proofs.Syntax.RoundTrip
import Mathlib

/-!
# What the display of a value tells

Inside an array texts are quoted, so that the display of the array shows where its items begin and
end. If no text contains a quote and the parameters of functions are names, the display tells
everything but the bodies and scopes of functions, the marks, and the signs of zeros
(`Value.display_array_eq_iff`). Each form is followed by a comma or a bracket, which it does not
contain outside of quotes and brackets of its own, so it can be read off from the left
(`Value.Legible.nestedTo_inj`).
-/

namespace Egg

/-! ## Lists with commas between the items -/

section Separated

variable {α : Type} {f : α → List Char → List Char} {stop : Char} {r r' : List Char}

/-- Things in the form `f`, with a comma and a space between each two, followed by `rest`. -/
def separatedTo (f : α → List Char → List Char) : List α → List Char → List Char
  | [], rest => rest
  | [a], rest => f a rest
  | a :: a' :: as, rest => f a (',' :: ' ' :: separatedTo f (a' :: as) rest)

/-- What comes behind the first of several things. -/
def moreTo (f : α → List Char → List Char) : List α → List Char → List Char
  | [], rest => rest
  | a :: as, rest => ',' :: ' ' :: separatedTo f (a :: as) rest

/-- The text begins with a comma or with the mark that ends a list. -/
def Stops (stop : Char) (rest : List Char) : Prop := ∃ c cs, rest = c :: cs ∧ (c = ',' ∨ c = stop)

theorem separatedTo_cons (f : α → List Char → List Char) (a : α) (as : List α) (rest : List Char) :
    separatedTo f (a :: as) rest = f a (moreTo f as rest) := by
  cases as <;> rfl

theorem stops_moreTo (as : List α) (r : List Char) : Stops stop (moreTo f as (stop :: r)) := by
  cases as with
  | nil => exact ⟨stop, r, rfl, .inr rfl⟩
  | cons a as => exact ⟨',', _, rfl, .inl rfl⟩

theorem Stops.head_eq_false {p : Char → Bool} (hcomma : p ',' = false) (hstop : p stop = false)
    (h : Stops stop r) : ∀ c ∈ r.head?, p c = false := by
  obtain ⟨c, cs, rfl, hc⟩ := h
  intro d hd
  obtain rfl : c = d := by simpa using hd
  rcases hc with rfl | rfl
  · exact hcomma
  · exact hstop

/-- If the form of each thing can be told from what follows it, so can that of a list of things. -/
theorem separatedTo_inj {R : α → α → Prop} (hstop : stop ≠ ',') {as bs : List α}
    (hhead : ∀ a, a ∈ as ∨ a ∈ bs → ∀ rest, (f a rest).head? ≠ some stop)
    (hread : ∀ a ∈ as, ∀ b ∈ bs, ∀ rest rest', Stops stop rest → Stops stop rest' →
      f a rest = f b rest' → R a b ∧ rest = rest')
    (h : separatedTo f as (stop :: r) = separatedTo f bs (stop :: r')) :
    List.Forall₂ R as bs ∧ r = r' := by
  induction as generalizing bs with
  | nil =>
    cases bs with
    | nil => exact ⟨.nil, (List.cons.inj h).2⟩
    | cons b bs =>
      rw [separatedTo_cons] at h
      exact absurd (congrArg List.head? h.symm) (hhead b (.inr List.mem_cons_self) _)
  | cons a as ih =>
    cases bs with
    | nil =>
      rw [separatedTo_cons] at h
      exact absurd (congrArg List.head? h) (hhead a (.inl List.mem_cons_self) _)
    | cons b bs =>
      rw [separatedTo_cons, separatedTo_cons] at h
      obtain ⟨hab, hmore⟩ := hread a List.mem_cons_self b List.mem_cons_self _ _
        (stops_moreTo as r) (stops_moreTo bs r') h
      cases as with
      | nil =>
        cases bs with
        | nil => exact ⟨.cons hab .nil, (List.cons.inj hmore).2⟩
        | cons b' bs => exact absurd (List.cons.inj hmore).1 hstop
      | cons a' as =>
        cases bs with
        | nil => exact absurd (List.cons.inj hmore).1.symm hstop
        | cons b' bs =>
          have hrest := (List.cons.inj (List.cons.inj hmore).2).2
          obtain ⟨hall, heq⟩ := ih
            (fun x hx => hhead x (hx.imp (List.mem_cons_of_mem a) (List.mem_cons_of_mem b)))
            (fun x hx y hy => hread x (List.mem_cons_of_mem a hx) y (List.mem_cons_of_mem b hy)) hrest
          exact ⟨.cons hab hall, heq⟩

end Separated

/-! ## Names -/

theorem Value.namesTo_eq_separatedTo (names : List Name) (rest : List Char) :
    namesTo names rest = separatedTo (fun name rest => name.toList ++ rest) names rest := by
  induction names with
  | nil => rfl
  | cons name names ih =>
    cases names with
    | nil => rfl
    | cons name' names =>
      show name.toList ++ ',' :: ' ' :: namesTo (name' :: names) rest = _
      rw [ih]
      rfl

open Syntax Syntax.Grammar in
/-- Names with commas between them, in brackets, can be told apart. -/
theorem Value.namesTo_inj {names names' : List Name} (h : ∀ name ∈ names, IsName name.toList)
    (h' : ∀ name ∈ names', IsName name.toList) {r r' : List Char}
    (heq : namesTo names (')' :: r) = namesTo names' (')' :: r')) : names = names' ∧ r = r' := by
  have hword : ∀ name, name ∈ names ∨ name ∈ names' → IsName name.toList := by
    intro name hname
    exact hname.elim (h name) (h' name)
  have hhead : ∀ name, name ∈ names ∨ name ∈ names' → ∀ rest,
      (name.toList ++ rest).head? ≠ some ')' := by
    intro name hname rest hhead
    obtain ⟨c, cs, hcs⟩ := List.exists_cons_of_ne_nil (hword name hname).ne_nil
    rw [hcs] at hhead
    obtain rfl : c = ')' := by simpa using hhead
    cases (hword name hname).wordChar ')' (hcs ▸ List.mem_cons_self)
  have hread : ∀ a ∈ names, ∀ b ∈ names', ∀ rest rest', Stops ')' rest → Stops ')' rest' →
      a.toList ++ rest = b.toList ++ rest' → a = b ∧ rest = rest' := by
    intro a ha b hb rest rest' hstops hstops' hab
    obtain ⟨hnames, hrest⟩ := Syntax.append_inj_of_class (h a ha).wordChar (h' b hb).wordChar
      (hstops.head_eq_false rfl rfl) (hstops'.head_eq_false rfl rfl) hab
    exact ⟨String.toList_inj.mp hnames, hrest⟩
  rw [namesTo_eq_separatedTo, namesTo_eq_separatedTo] at heq
  obtain ⟨hall, hrest⟩ := separatedTo_inj (by decide) hhead hread heq
  rw [List.forall₂_eq_eq_eq] at hall
  exact ⟨hall, hrest⟩

/-! ## Native functions -/

/-- The first character of the name of a native function tells which one it is. -/
theorem Builtin.eq_of_head?_name {b b' : Builtin}
    (h : b.name.toList.head? = b'.name.toList.head?) : b = b' := by
  have hfind : ∀ b : Builtin, all.find? (·.name.toList.head? == b.name.toList.head?) = some b := by
    intro b
    cases b <;> rfl
  exact Option.some.inj ((hfind b).symm.trans (h ▸ hfind b'))

theorem Builtin.name_append_inj {b b' : Builtin} {r r' : List Char}
    (h : b.name.toList ++ r = b'.name.toList ++ r') : b = b' ∧ r = r' := by
  have hhead : ∀ (b : Builtin) r, (b.name.toList ++ r).head? = b.name.toList.head? := by
    intro b r
    cases b <;> rfl
  obtain rfl : b = b' := eq_of_head?_name (by rw [← hhead b r, h, hhead b' r'])
  exact ⟨rfl, List.append_cancel_left h⟩

namespace Value

/-! ## Content -/

/-- Values that can be told apart by their display inside an array: no text contains a quote, and
the parameters of functions are words of the language. -/
inductive Legible : Value → Prop where
  | number (n : Number) : Legible (.number n)
  | text {s : String} (h : '"' ∉ s.toList) : Legible (.text s)
  | bool (b : Bool) : Legible (.bool b)
  | native (b : Builtin) : Legible (.native b)
  | array (x : Tag) {items : List Value} (h : ∀ v ∈ items, Legible v) : Legible (.array x items)
  | function (x : Tag) {c : Closure} (h : ∀ p ∈ c.params, Syntax.parse p = .ok (.word p)) :
      Legible (.function x c)

/-- Values of the same shape, with the same texts, booleans, native functions and parameters at the
same places, and with the same numbers up to the sign of zero. -/
inductive SameContent : Value → Value → Prop where
  | number {m n : Number} (h : m.Same n) : SameContent (.number m) (.number n)
  | text (s : String) : SameContent (.text s) (.text s)
  | bool (b : Bool) : SameContent (.bool b) (.bool b)
  | native (b : Builtin) : SameContent (.native b) (.native b)
  | array {x y : Tag} {items items' : List Value} (hlength : items.length = items'.length)
      (h : ∀ p ∈ items.zip items', SameContent p.1 p.2) :
      SameContent (.array x items) (.array y items')
  | function {x y : Tag} {c c' : Closure} (h : c.params = c'.params) :
      SameContent (.function x c) (.function y c')

variable {v w : Value} {rest rest' : List Char}

theorem sameContent_array {x y : Tag} {items items' : List Value}
    (h : List.Forall₂ SameContent items items') :
    (array x items).SameContent (array y items') :=
  .array h.length_eq fun _ hp => (List.forall₂_iff_zip.mp h).2 hp

theorem SameContent.nestedTo_eq (h : v.SameContent w) :
    ∀ rest, v.nestedTo rest = w.nestedTo rest := by
  induction h with
  | text | bool | native => exact fun rest => rfl
  | @number m n h =>
    intro rest
    show m.display ++ rest = n.display ++ rest
    rw [Number.display_eq_display_iff.mpr h]
  | array hlength _ ih => exact nestedTo_array_eq hlength ih
  | function h => exact nestedTo_function_eq h

/-! ## Kinds -/

/-- The kind of the value whose form the text begins with. -/
def announcedKind? : List Char → Option String
  | [] | ']' :: _ => none
  | '"' :: _ => some "text"
  | 't' :: _ | 'f' :: _ => some "boolean"
  | '[' :: _ => some "array"
  | '<' :: 'f' :: _ => some "function"
  | '<' :: _ => some "native function"
  | _ => some "number"

theorem announcedKind?_number {c : Char} (cs : List Char)
    (h : Number.isDecimalChar c = true ∨ c = 'N' ∨ c = 'I') :
    announcedKind? (c :: cs) = some "number" := by
  rcases h with h | rfl | rfl
  · unfold announcedKind?
    split <;> simp_all [Number.isDecimalChar]
  · rfl
  · rfl

theorem announcedKind?_nestedTo (v : Value) (rest : List Char) :
    announcedKind? (v.nestedTo rest) = some v.kindName := by
  cases v with
  | number n =>
    obtain ⟨c, cs, hcs, hc⟩ := n.exists_display_eq_cons
    show announcedKind? (n.display ++ rest) = some "number"
    rw [hcs]
    exact announcedKind?_number (cs ++ rest) hc
  | bool b => cases b <;> rfl
  | text | array | function | native => rfl

theorem kindName_eq_of_nestedTo_eq (h : v.nestedTo rest = w.nestedTo rest') :
    v.kindName = w.kindName := by
  have hkind := announcedKind?_nestedTo v rest
  rw [h, announcedKind?_nestedTo] at hkind
  exact (Option.some.inj hkind).symm

theorem head?_nestedTo_ne (v : Value) (rest : List Char) :
    (v.nestedTo rest).head? ≠ some ']' := by
  intro hhead
  have hkind := announcedKind?_nestedTo v rest
  obtain ⟨cs, hcs⟩ := List.head?_eq_some_iff.mp hhead
  rw [hcs] at hkind
  cases hkind

/-! ## Reading the content off -/

theorem nestedItemsTo_eq_separatedTo (items : List Value) (rest : List Char) :
    nestedItemsTo items rest = separatedTo nestedTo items rest := by
  induction items with
  | nil => rfl
  | cons v items ih =>
    cases items with
    | nil => rfl
    | cons v' items =>
      show v.nestedTo (',' :: ' ' :: nestedItemsTo (v' :: items) rest) = _
      rw [ih]
      rfl

open Syntax.Grammar in
theorem isName_of_parse {p : Name} (h : Syntax.parse p = .ok (.word p)) : IsName p.toList :=
  (Syntax.written_of_parse h).word p (by simp [Expr.leaves])

/-- The form of a value inside an array tells its content, and where it ends. -/
theorem Legible.nestedTo_inj (hv : v.Legible) (hw : w.Legible) (hr : Stops ']' rest)
    (hr' : Stops ']' rest') (h : v.nestedTo rest = w.nestedTo rest') :
    v.SameContent w ∧ rest = rest' := by
  -- The first characters tell the kind, so a value of another kind is ruled out in each case.
  have hkind := kindName_eq_of_nestedTo_eq h
  induction hv generalizing w rest rest' with
  | number n =>
    cases hw with
    | number m =>
      -- Only here does it matter what follows: a number ends where a mark begins.
      obtain ⟨hdisplay, hrest⟩ := Syntax.append_inj_of_class (fun c => Number.not_mark_of_mem_display)
        (fun c => Number.not_mark_of_mem_display) (hr.head_eq_false rfl rfl)
        (hr'.head_eq_false rfl rfl) h
      exact ⟨.number (Number.display_eq_display_iff.mp hdisplay), hrest⟩
    | text | bool | native | array | function => exact absurd hkind (by simp [kindName])
  | @text s hs =>
    cases hw with
    | @text s' hs' =>
      have hquote : ∀ {s : String}, '"' ∉ s.toList → ∀ c ∈ s.toList, (c != '"') = true := by
        intro s hs c hc
        exact bne_iff_ne.mpr (ne_of_mem_of_not_mem hc hs)
      obtain ⟨htext, hrest⟩ := Syntax.append_inj_of_class (hquote hs) (hquote hs') (by simp) (by simp)
        (List.cons.inj h).2
      obtain rfl := String.toList_inj.mp htext
      exact ⟨.text s, (List.cons.inj hrest).2⟩
    | number | bool | native | array | function => exact absurd hkind (by simp [kindName])
  | bool b =>
    cases hw with
    | bool b' =>
      cases b <;> cases b'
      · exact ⟨.bool false, List.append_cancel_left h⟩
      · exact absurd (List.cons.inj h).1 (by decide)
      · exact absurd (List.cons.inj h).1 (by decide)
      · exact ⟨.bool true, List.append_cancel_left h⟩
    | number | text | native | array | function => exact absurd hkind (by simp [kindName])
  | native b =>
    cases hw with
    | native b' =>
      obtain ⟨rfl, hrest⟩ := Builtin.name_append_inj (List.append_cancel_left h)
      exact ⟨.native b, (List.cons.inj hrest).2⟩
    | number | text | bool | array | function => exact absurd hkind (by simp [kindName])
  | @array x items hitems ih =>
    cases hw with
    | @array y items' hitems' =>
      have hlist := (List.cons.inj h).2
      rw [nestedItemsTo_eq_separatedTo, nestedItemsTo_eq_separatedTo] at hlist
      obtain ⟨hall, hrest⟩ := separatedTo_inj (by decide) (fun v _ => head?_nestedTo_ne v)
        (fun a ha b hb r r' hr hr' hab =>
          ih a ha (hitems' b hb) hr hr' hab (kindName_eq_of_nestedTo_eq hab)) hlist
      exact ⟨sameContent_array hall, hrest⟩
    | number | text | bool | native | function => exact absurd hkind (by simp [kindName])
  | @function x c hc =>
    cases hw with
    | @function y c' hc' =>
      obtain ⟨hparams, hrest⟩ := namesTo_inj (fun p hp => isName_of_parse (hc p hp))
        (fun p hp => isName_of_parse (hc' p hp)) (List.append_cancel_left h)
      exact ⟨.function hparams, (List.cons.inj hrest).2⟩
    | number | text | bool | native | array => exact absurd hkind (by simp [kindName])

/-- Two values are displayed alike inside an array if and only if they have the same content. -/
theorem display_array_eq_iff (hv : v.Legible) (hw : w.Legible) (x y : Tag) :
    (array x [v]).display = (array y [w]).display ↔ v.SameContent w := by
  have hstops : Stops ']' [']'] := ⟨']', [], rfl, .inr rfl⟩
  constructor
  · intro h
    have hchars : '[' :: v.nestedTo [']'] = '[' :: w.nestedTo [']'] := String.ofList_injective h
    exact (hv.nestedTo_inj hw hstops hstops (List.cons.inj hchars).2).1
  · intro h
    show String.ofList ('[' :: v.nestedTo [']']) = String.ofList ('[' :: w.nestedTo [']'])
    rw [h.nestedTo_eq]

/-- Both are displayed as `[[0, "1, [2]", <function(x)>]]`. -/
theorem display_array_eq_iff_bodies_and_zeros :
    (array 1 [number ⟨0⟩, text "1, [2]", function 2 ⟨["x"], .word "x", 0⟩]).Legible ∧
      (array 3 [number ⟨Number.signBit⟩, text "1, [2]", function 4 ⟨["x"], .word "y", 5⟩]).Legible ∧
      (array 1 [number ⟨0⟩, text "1, [2]", function 2 ⟨["x"], .word "x", 0⟩]).SameContent
        (array 3 [number ⟨Number.signBit⟩, text "1, [2]", function 4 ⟨["x"], .word "y", 5⟩]) := by
  have hparse : Syntax.parse "x" = .ok (.word "x") := by cbv
  have hlegible : ∀ (x y : Tag) (n : Number) (body : Expr) (scope : ScopeId),
      (array x [number n, text "1, [2]", function y ⟨["x"], body, scope⟩]).Legible := by
    intro x y n body scope
    refine .array x (List.forall_mem_cons.mpr ⟨.number n, List.forall_mem_cons.mpr
      ⟨.text (by decide), List.forall_mem_singleton.mpr (.function y ?_)⟩⟩)
    exact List.forall_mem_singleton.mpr hparse
  have hdisplay : ∀ (x y : Tag) (n : Number) (body : Expr) (scope : ScopeId), n.isZero = true →
      (array 0 [array x [number n, text "1, [2]", function y ⟨["x"], body, scope⟩]]).display =
        "[[0, \"1, [2]\", <function(x)>]]" := by
    intro x y n body scope hzero
    show String.ofList ('[' :: '[' :: (n.display ++ ", \"1, [2]\", <function(x)>]]".toList)) = _
    rw [Number.display_of_isZero hzero]
    rfl
  have hequal := (hdisplay 1 2 ⟨0⟩ (.word "x") 0 rfl).trans
    (hdisplay 3 4 ⟨Number.signBit⟩ (.word "y") 5 rfl).symm
  exact ⟨hlegible .., hlegible .., (display_array_eq_iff (hlegible ..) (hlegible ..) 0 0).mp hequal⟩

end Value

end Egg
