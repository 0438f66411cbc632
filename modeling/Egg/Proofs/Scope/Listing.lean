import Egg.Proofs.Eval.GlobalScope
import Egg.Proofs.Expr.Dumping
import Egg.Proofs.Scope.Chain
import Egg.Proofs.Text.ByteOrder
import Mathlib

/-!
# The names that a scope shows

A scope is shown by the names that it owns. They are those it was made with and those that have been
defined in it since: an assignment changes what a name is bound to, but not who owns the name, and what
is done to other scopes does not matter (`Heap.exists_bindingAt_after`). The names are shown in the
order of their bytes, each of them once. So there is only one way to show them, in whatever order they
came about (`names_eq_of_mem_iff`), and no other names are shown in that way, since quoted names can be
told from what follows them (`Scope.toDump_tfae`).
-/

namespace Egg

/-! ## Names in order -/

namespace Bindings

theorem mem_names_iff {b : Bindings} {name : Name} :
    name ∈ b.names ↔ ∃ v, b.find? name = some v := by
  obtain ⟨entries, hentries⟩ := b
  change name ∈ entries.map Prod.fst ↔ ∃ v, entryValue? name entries = some v
  clear hentries
  induction entries with
  | nil => simp [entryValue?]
  | cons e rest ih =>
    obtain ⟨n, v⟩ := e
    by_cases hname : name = n
    · simp [entryValue?, hname]
    · simp [entryValue?, hname, ih]

theorem pairwise_names (b : Bindings) : b.names.Pairwise (· < ·) :=
  List.pairwise_map.mpr b.ascending

/-- Ascending names are known by which names they are. -/
theorem names_eq_of_mem_iff {b b' : Bindings} (h : ∀ name, name ∈ b.names ↔ name ∈ b'.names) :
    b.names = b'.names := by
  have hnodup : ∀ b : Bindings, b.names.Nodup := fun b =>
    b.pairwise_names.imp String.ne_of_lt
  refine List.Perm.eq_of_pairwise ?_ b.pairwise_names b'.pairwise_names ?_
  · intro m n _ _ hmn hnm
    exact absurd hnm (String.lt_asymm hmn)
  · exact (List.perm_ext_iff_of_nodup (hnodup b) (hnodup b')).mpr h

end Bindings

/-! ## How a scope is shown -/

/-- The text that shows names, which are given as they are written, and whether a scope lies inside of
another one. -/
def listing (names : List (List Char)) (inside : Bool) : List Char :=
  "Environment \x7b names: [".toList ++ ([',', ' '].intercalate names ++
    ("], has_parent: ".toList ++ ((if inside then "true".toList else "false".toList) ++
      " \x7d".toList)))

theorem Dump.compactItemsTo_atoms (texts : List (List Char)) (rest : List Char) :
    compactItemsTo (texts.map .atom) rest = [',', ' '].intercalate texts ++ rest := by
  induction texts with
  | nil => rfl
  | cons t texts ih =>
    cases texts with
    | nil => simp [compactItemsTo, compactTo]
    | cons t' texts =>
      rw [List.map_cons, List.map_cons, compactItemsTo, ← List.map_cons, ih,
        List.intercalate_cons_cons, compactTo]
      simp

theorem Scope.compact_toDump (s : Scope) :
    s.toDump.compact = listing (s.bindings.names.map Text.quoted) s.parent.isSome := by
  have hatoms : (s.bindings.names.map fun n => Dump.atom (Text.quoted n)) =
      (s.bindings.names.map Text.quoted).map .atom := by
    rw [List.map_map]
    rfl
  unfold listing
  rw [toDump, hatoms]
  simp only [Dump.compact, Dump.compactTo, Dump.compactItemsTo, Dump.compactItemsTo_atoms,
    Bracket.opening, Bracket.padding, Bracket.closing]
  generalize (if s.parent.isSome = true then "true".toList else "false".toList) = flag
  simp

namespace Layout

variable {L : Layout} {level : Nat} {r r' : List Char}

theorem writeTo_flag_inj {x y : Bool}
    (h : L.writeTo level (.atom (if x then "true".toList else "false".toList)) r =
      L.writeTo level (.atom (if y then "true".toList else "false".toList)) r') : x = y := by
  have hnewline : ∀ z : Bool, '\n' ∉ (if z then "true".toList else "false".toList) := by decide
  rw [writeTo_atom (hnewline x), writeTo_atom (hnewline y)] at h
  cases x <;> cases y <;> simp at h ⊢

/-- The names and the place of a scope can be told from how it is shown, in any layout. -/
theorem writeTo_scope_inj {s s' : Scope}
    (h : L.writeTo level s.toDump r = L.writeTo level s'.toDump r') :
    s.bindings.names = s'.bindings.names ∧ s.parent.isSome = s'.parent.isSome := by
  have hhead : ∀ name x, (L.writeTo (level + 2) (.atom (Text.quoted name)) x).head? ≠ some ']' := by
    intro name x
    rw [writeTo_atom (Text.newline_not_mem_quoted name)]
    simp [Text.quoted]
  simp only [Scope.toDump, writeTo, moreTo, List.append_right_inj, List.cons.injEq, true_and] at h
  -- the list of names ends by itself, and the flag stands at a fixed place behind it
  obtain ⟨hnames, hmore⟩ :=
    writeTo_map_inj hhead (fun name _ name' x x' heq => writeTo_quoted_inj heq) h
  simp only [List.append_right_inj, List.cons.injEq, true_and] at hmore
  exact ⟨List.forall₂_eq_eq_eq ▸ hnames, writeTo_flag_inj hmore⟩

end Layout

/-- Scopes are shown by the same text, on one line or over several, if and only if they own the same names
and both or neither lie inside of another one. -/
theorem Scope.toDump_tfae (s s' : Scope) :
    [s'.toDump = s.toDump, s'.toDump.compact = s.toDump.compact, s'.toDump.pretty = s.toDump.pretty,
      s'.bindings.names = s.bindings.names ∧ s'.parent.isSome = s.parent.isSome].TFAE := by
  obtain ⟨hcompact, hpretty⟩ := Layout.of_written
    fun L (h : L.writeTo 0 s'.toDump [] = L.writeTo 0 s.toDump []) => Layout.writeTo_scope_inj h
  tfae_have 1 → 2 := fun h => congrArg Dump.compact h
  tfae_have 1 → 3 := fun h => congrArg Dump.pretty h
  tfae_have 2 → 4 := hcompact
  tfae_have 3 → 4 := hpretty
  tfae_have 4 → 1 := by
    rintro ⟨hnames, hinside⟩
    rw [toDump, toDump, hnames, hinside]
  tfae_finish

/-! ## Operations on scopes -/

namespace Heap

/-- What can be done to scopes: one is made, or a name is defined in one or assigned from there. -/
inductive Operation where
  | make (bindings : Bindings) (parent : Option ScopeId)
  | define (id : ScopeId) (name : Name) (v : Value)
  | assign (id : ScopeId) (name : Name) (v : Value)

/-- The heap behind an operation. An assignment that is refused changes nothing. -/
def Operation.perform (h : Heap) : Operation → Heap
  | make bindings parent => h.push bindings parent
  | define id name v => h.define id name v
  | assign id name v => (h.assign? id name v).getD h

/-- The heap behind some operations, one after the other. -/
def after (h : Heap) (ops : List Operation) : Heap := ops.foldl Operation.perform h

/-- An assignment that is carried out is a definition in a scope that owns the name already. -/
theorem perform_assign (h : Heap) (id : ScopeId) (name : Name) (v : Value) :
    Operation.perform h (.assign id name v) = h ∨
      ∃ owner w, h.bindingAt owner name = some w ∧
        Operation.perform h (.assign id name v) = h.define owner name v := by
  rw [Operation.perform]
  cases hassign : h.assign? id name v with
  | none => exact .inl rfl
  | some h' =>
    obtain ⟨owner, howner, rfl⟩ := assign?_eq_some_iff.mp hassign
    obtain ⟨-, w, hw⟩ := firstOwner?_eq_some_iff.mp howner
    exact .inr ⟨owner, w, hw, rfl⟩

/-- A definition lets its scope own the name, and changes nothing else about who owns what. -/
theorem exists_bindingAt_define {h : Heap} {id : ScopeId} (hid : id < h.size) (j : ScopeId)
    (name m : Name) (v : Value) : (∃ w, (h.define j m v).bindingAt id name = some w) ↔
      (∃ w, h.bindingAt id name = some w) ∨ j = id ∧ m = name := by
  by_cases hj : id = j
  · subst hj
    by_cases hm : name = m
    · simp [bindingAt_define hid, hm]
    · simp [bindingAt_define hid, hm, Ne.symm hm]
  · simp [bindingAt_define_of_scope_ne hj, Ne.symm hj]

/-- Only a definition in the scope itself adds to the names that it owns. -/
theorem exists_bindingAt_perform {h : Heap} {id : ScopeId} (hid : id < h.size) (name : Name)
    (op : Operation) : (∃ v, (op.perform h).bindingAt id name = some v) ↔
      (∃ v, h.bindingAt id name = some v) ∨ ∃ v, op = .define id name v := by
  cases op with
  | make bindings parent => simp [Operation.perform, bindingAt_push_of_lt hid]
  | define j m v =>
    rw [Operation.perform, exists_bindingAt_define hid]
    simp
  | assign j m v =>
    rcases perform_assign h j m v with heq | ⟨owner, w, hw, heq⟩
    · simp [heq]
    · rw [heq, exists_bindingAt_define hid]
      constructor
      · rintro (howned | ⟨rfl, rfl⟩)
        · exact .inl howned
        -- the name was owned before it was assigned
        · exact .inl ⟨w, hw⟩
      · rintro (howned | ⟨v', hdefine⟩)
        · exact .inl howned
        · cases hdefine

theorem map_parent_perform {h : Heap} {id : ScopeId} (hid : id < h.size) (op : Operation) :
    ((op.perform h).get? id).map Scope.parent = (h.get? id).map Scope.parent := by
  cases op with
  | make bindings parent => rw [Operation.perform, get?_push_of_lt hid]
  | define j m v => exact h.map_parent_define j m v id
  | assign j m v =>
    rcases perform_assign h j m v with heq | ⟨owner, w, -, heq⟩
    · rw [heq]
    · rw [heq, map_parent_define]

theorem size_le_perform (h : Heap) (op : Operation) : h.size ≤ (op.perform h).size := by
  cases op with
  | make bindings parent =>
    rw [Operation.perform, size_push]
    omega
  | define j m v => rw [Operation.perform, size_define]
  | assign j m v =>
    rcases perform_assign h j m v with heq | ⟨owner, w, -, heq⟩
    · rw [heq]
    · rw [heq, size_define]

/-- Behind any operations, a scope owns the names that it owned and those defined in it since, and lies
where it lay. -/
theorem exists_bindingAt_after {h : Heap} {id : ScopeId} (hid : id < h.size) (ops : List Operation) :
    (∀ name, (∃ v, (h.after ops).bindingAt id name = some v) ↔
      (∃ v, h.bindingAt id name = some v) ∨ ∃ v, .define id name v ∈ ops) ∧
    ((h.after ops).get? id).map Scope.parent = (h.get? id).map Scope.parent := by
  induction ops generalizing h with
  | nil => simp [after]
  | cons op ops ih =>
    obtain ⟨hnames, hparent⟩ := ih (Nat.lt_of_lt_of_le hid (h.size_le_perform op))
    refine ⟨fun name => ?_, hparent.trans (map_parent_perform hid op)⟩
    refine (hnames name).trans ?_
    rw [exists_bindingAt_perform hid]
    simp only [List.mem_cons, exists_or, or_assoc, eq_comm]

/-- The name is one that the scope `id` is made with, or one that the operations define in it. -/
def GivesName (b : Bindings) (id : ScopeId) (ops : List Operation) (name : Name) : Prop :=
  name ∈ b.names ∨ ∃ v, .define id name v ∈ ops

/-- A scope owns the names that it was ever given. -/
theorem exists_scope_after (h : Heap) (b : Bindings) (parent : Option ScopeId)
    (ops : List Operation) :
    ∃ scope, ((h.push b parent).after ops).get? h.size = some scope ∧ scope.parent = parent ∧
      ∀ name, name ∈ scope.bindings.names ↔ GivesName b h.size ops name := by
  have hid : h.size < (h.push b parent).size := by
    rw [size_push]
    omega
  have hfirst : (h.push b parent).get? h.size = some ⟨b, parent⟩ := by
    rw [get?_push, if_pos rfl]
  obtain ⟨hnames, hparent⟩ := exists_bindingAt_after hid ops
  rw [hfirst, Option.map_some] at hparent
  obtain ⟨scope, hscope, hlink⟩ := Option.map_eq_some_iff.mp hparent
  refine ⟨scope, hscope, hlink, ?_⟩
  intro name
  have hname := hnames name
  rw [bindingAt_of_get? hscope, bindingAt_of_get? hfirst] at hname
  rw [Bindings.mem_names_iff, GivesName, Bindings.mem_names_iff]
  exact hname

/-- From the moment at which a scope is made, and behind any operations on this and on other scopes, it
is shown by the names that it was ever given, each of them once and between quotes, in ascending order
of their bytes, which is also that of their code points. Two scopes are shown by the same text, on one
line or over several, if and only if they were given the same names and both or neither lie inside of
another one, whatever was done and in whatever order. -/
theorem listing_canonical (h : Heap) (b : Bindings) (parent : Option ScopeId) (ops : List Operation) :
    ∃ scope, ((h.push b parent).after ops).get? h.size = some scope ∧
      (∃ names : List Name, scope.toDump.compact = listing (names.map Text.quoted) parent.isSome ∧
        (∀ name ∈ names, Text.IsQuoted name (Text.quoted name)) ∧
        (∀ name, name ∈ names ↔ GivesName b h.size ops name) ∧
        names.Pairwise fun m n => Text.encoded m.toList < Text.encoded n.toList) ∧
      (∀ m n : Name, Text.encoded m.toList < Text.encoded n.toList ↔
        m.toList.map Char.toNat < n.toList.map Char.toNat) ∧
      ∀ (h' : Heap) b' (parent' : Option ScopeId) ops' scope',
        ((h'.push b' parent').after ops').get? h'.size = some scope' →
        [scope'.toDump = scope.toDump, scope'.toDump.compact = scope.toDump.compact,
          scope'.toDump.pretty = scope.toDump.pretty,
          (∀ name, GivesName b' h'.size ops' name ↔ GivesName b h.size ops name) ∧
            parent'.isSome = parent.isSome].TFAE := by
  obtain ⟨scope, hscope, rfl, hnames⟩ := h.exists_scope_after b parent ops
  refine ⟨scope, hscope, ⟨scope.bindings.names, scope.compact_toDump,
    fun name _ => Text.isQuoted_quoted name, hnames, ?_⟩, ?_, ?_⟩
  · refine scope.bindings.pairwise_names.imp fun hmn => ?_
    exact Text.encoded_lt_encoded (String.lt_iff_toList_lt.mp hmn)
  · intro m n
    rw [Text.encoded_lt_encoded_iff, Text.map_toNat_lt_map_toNat_iff]
  · intro h' b' parent' ops' scope' hscope'
    obtain ⟨scope'', heq, rfl, hnames'⟩ := h'.exists_scope_after b' parent' ops'
    obtain rfl : scope'' = scope' := Option.some.inj (heq.symm.trans hscope')
    have hsame : scope''.bindings.names = scope.bindings.names ↔
        ∀ name, GivesName b' h'.size ops' name ↔ GivesName b h.size ops name := by
      simp only [← hnames, ← hnames']
      refine ⟨fun heq name => ?_, Bindings.names_eq_of_mem_iff⟩
      rw [heq]
    rw [← hsame]
    exact scope.toDump_tfae scope''

/-- Two outermost scopes in which `a` and `b` are defined in one order and in the other. Their values
differ, and one of them is assigned to. -/
theorem listing_canonical_two_orders :
    ∃ scope scope' : Scope,
      ((empty.push .empty none).after
        [.define 0 "b" (.bool true), .define 0 "a" (.text "x")]).get? 0 = some scope ∧
      ((empty.push .empty none).after
        [.define 0 "a" (.text "y"), .assign 0 "a" (.bool false), .define 0 "b" (.text "x")]).get? 0 =
          some scope' ∧
      scope'.toDump.compact = scope.toDump.compact ∧
      scope.toDump.compact =
        "Environment \x7b names: [\"a\", \"b\"], has_parent: false \x7d".toList := by
  obtain ⟨scope, hscope, -, -, hsame⟩ := listing_canonical empty .empty none
    [.define 0 "b" (.bool true), .define 0 "a" (.text "x")]
  obtain ⟨scope', hscope', -⟩ := listing_canonical empty .empty none
    [.define 0 "a" (.text "y"), .assign 0 "a" (.bool false), .define 0 "b" (.text "x")]
  refine ⟨scope, scope', hscope, hscope', ?_, ?_⟩
  · have hnames : ∀ name, GivesName .empty 0
        [.define 0 "a" (.text "y"), .assign 0 "a" (.bool false), .define 0 "b" (.text "x")] name ↔
          GivesName .empty 0 [.define 0 "b" (.bool true), .define 0 "a" (.text "x")] name := by
      simp [GivesName, exists_or, or_comm]
    have htexts : scope'.toDump.compact = scope.toDump.compact ↔ _ :=
      (hsame _ _ _ _ _ hscope').out 1 3
    exact htexts.mpr ⟨hnames, rfl⟩
  · have htext : (((empty.push .empty none).after
        [.define 0 "b" (.bool true), .define 0 "a" (.text "x")]).get? 0).map (·.toDump.compact) =
          some "Environment \x7b names: [\"a\", \"b\"], has_parent: false \x7d".toList := rfl
    exact Option.some.inj ((congrArg (Option.map _) hscope).symm.trans htext)

end Heap

end Egg
