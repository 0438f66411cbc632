import Mathlib.Data.List.Induction
import Egg.Scope.Heap

/-!
# Which binding a name stands for

From inside a scope a name stands for its binding in the nearest scope around it that owns the name.
Here this is said by two relations that follow the links from a scope to its parent: `Resolves` leads
to the binding, and `Unbound` says that no scope on the way out owns the name. In a heap whose links
lead to older scopes exactly one of the two holds, and `owner?` and `lookup?` decide which one.
-/

namespace Egg

/-! ## Bindings -/

theorem entryValue?_insertEntry (name m : Name) (value : Value) (entries : List (Name × Value)) :
    entryValue? m (insertEntry name value entries) =
      if m = name then some value else entryValue? m entries := by
  induction entries with
  | nil => simp [insertEntry, entryValue?]
  | cons e rest ih =>
    obtain ⟨n, v⟩ := e
    simp only [insertEntry]
    split
    · next heq =>
      subst heq
      by_cases hm : m = name <;> simp [entryValue?, hm]
    · next hne =>
      split
      · simp [entryValue?]
      · by_cases hn : m = n
        · have hm : m ≠ name := fun h => hne (h.symm.trans hn)
          simp [entryValue?, hn, Ne.symm hne]
        · simp [entryValue?, hn, ih]

theorem mem_of_entryValue? {name : Name} {value : Value} {entries : List (Name × Value)}
    (h : entryValue? name entries = some value) : (name, value) ∈ entries := by
  induction entries with
  | nil => simp [entryValue?] at h
  | cons e rest ih =>
    obtain ⟨n, v⟩ := e
    simp only [entryValue?] at h
    split at h
    · next heq =>
      rw [Option.some.injEq] at h
      rw [heq, h]
      exact List.mem_cons_self
    · exact List.mem_cons_of_mem _ (ih h)

namespace Bindings

@[simp]
theorem find?_empty (name : Name) : empty.find? name = none := rfl

@[simp]
theorem find?_insert (b : Bindings) (name m : Name) (value : Value) :
    (b.insert name value).find? m = if m = name then some value else b.find? m :=
  entryValue?_insertEntry name m value b.entries

theorem binds_eq_true {b : Bindings} {name : Name} :
    b.binds name = true ↔ ∃ v, b.find? name = some v := by
  rw [binds, Option.isSome_iff_exists]

theorem binds_eq_false {b : Bindings} {name : Name} :
    b.binds name = false ↔ b.find? name = none := by
  rw [binds, Option.isSome_eq_false_iff, Option.isNone_iff_eq_none]

theorem find?_foldl_insert (entries : List (Name × Value)) (b : Bindings) (name : Name) :
    (entries.foldl (fun b (name, value) => b.insert name value) b).find? name =
      (entryValue? name entries.reverse).or (b.find? name) := by
  induction entries using List.reverseRecOn with
  | nil => simp [entryValue?]
  | append_singleton rest e ih =>
    obtain ⟨n, v⟩ := e
    rw [List.foldl_append, List.reverse_append]
    simp only [List.foldl_cons, List.foldl_nil, List.reverse_cons, List.reverse_nil, List.nil_append,
      List.cons_append, find?_insert, entryValue?]
    split
    · simp
    · exact ih

/-- In bindings made from a list, a name has the value that stands last for it. -/
theorem find?_ofList (entries : List (Name × Value)) (name : Name) :
    (ofList entries).find? name = entryValue? name entries.reverse := by
  rw [ofList, find?_foldl_insert, find?_empty, Option.or_none]

theorem mem_of_find?_ofList {entries : List (Name × Value)} {name : Name} {value : Value}
    (h : (ofList entries).find? name = some value) : (name, value) ∈ entries := by
  rw [find?_ofList] at h
  exact List.mem_reverse.mp (mem_of_entryValue? h)

/-- In the scope of a call nothing is bound but the parameters. -/
theorem find?_ofList_zip_of_not_mem {params : List Name} {name : Name} (h : name ∉ params)
    (args : List Value) : (ofList (params.zip args)).find? name = none := by
  cases hfind : (ofList (params.zip args)).find? name with
  | none => rfl
  | some v => exact absurd (List.of_mem_zip (mem_of_find?_ofList hfind)).1 h

end Bindings

/-! ## Heaps -/

namespace Heap

theorem get?_eq_none_iff {h : Heap} {id : ScopeId} : h.get? id = none ↔ h.size ≤ id := by
  simp [get?, size]

theorem exists_get?_of_lt {h : Heap} {id : ScopeId} (hid : id < h.size) :
    ∃ scope, h.get? id = some scope :=
  ⟨h.scopes[id], Array.getElem?_eq_getElem hid⟩

@[simp]
theorem size_define (h : Heap) (id : ScopeId) (name : Name) (value : Value) :
    (h.define id name value).size = h.size := by
  simp [define, size]

theorem get?_define (h : Heap) (id j : ScopeId) (name : Name) (value : Value) :
    (h.define id name value).get? j =
      if id = j then
        (h.get? j).map fun scope => { scope with bindings := scope.bindings.insert name value }
      else h.get? j := by
  simp only [get?, define, Array.getElem?_modify]

/-- A scope after a definition is one of before, where only the defined name may be bound anew. -/
theorem exists_of_get?_define {h : Heap} {id j : ScopeId} {name : Name} {v : Value} {scope : Scope}
    (hs : (h.define id name v).get? j = some scope) :
    ∃ old, h.get? j = some old ∧ scope.parent = old.parent ∧
      ∀ m, scope.bindings.find? m = old.bindings.find? m ∨
        m = name ∧ scope.bindings.find? m = some v := by
  rw [get?_define] at hs
  split at hs
  · obtain ⟨old, hold, rfl⟩ := Option.map_eq_some_iff.mp hs
    refine ⟨old, hold, rfl, ?_⟩
    intro m
    simp only [Bindings.find?_insert]
    by_cases hm : m = name
    · exact .inr ⟨hm, if_pos hm⟩
    · exact .inl (if_neg hm)
  · exact ⟨scope, hs, rfl, fun _ => .inl rfl⟩

@[simp]
theorem size_push (h : Heap) (bindings : Bindings) (parent : Option ScopeId) :
    (h.push bindings parent).size = h.size + 1 := by
  simp [push, size]

theorem get?_push (h : Heap) (bindings : Bindings) (parent : Option ScopeId) (j : ScopeId) :
    (h.push bindings parent).get? j =
      if j = h.size then some ⟨bindings, parent⟩ else h.get? j :=
  Array.getElem?_push

/-! ## Following the links -/

/-- Seen from the scope `id`, the nearest binding of `name` is that in the scope `owner`, to the value
`v`. -/
inductive Resolves (h : Heap) (name : Name) : (id owner : ScopeId) → (v : Value) → Prop where
  /-- The scope owns the name itself. -/
  | here {id : ScopeId} {scope : Scope} {v : Value} (hs : h.get? id = some scope)
      (hv : scope.bindings.find? name = some v) : Resolves h name id id v
  /-- The scope does not own the name, which is looked for in its parent. -/
  | outward {id parent owner : ScopeId} {scope : Scope} {v : Value} (hs : h.get? id = some scope)
      (hn : scope.bindings.find? name = none) (hp : scope.parent = some parent)
      (hr : Resolves h name parent owner v) : Resolves h name id owner v

/-- Neither the scope `id` nor any scope around it owns `name`. -/
inductive Unbound (h : Heap) (name : Name) : (id : ScopeId) → Prop where
  /-- The scope is an outermost one. -/
  | outermost {id : ScopeId} {scope : Scope} (hs : h.get? id = some scope)
      (hn : scope.bindings.find? name = none) (hp : scope.parent = none) : Unbound h name id
  /-- The scope lies inside another one. -/
  | outward {id parent : ScopeId} {scope : Scope} (hs : h.get? id = some scope)
      (hn : scope.bindings.find? name = none) (hp : scope.parent = some parent)
      (hu : Unbound h name parent) : Unbound h name id

/-- Every link leads from a scope to an older one. -/
def ParentsOlder (h : Heap) : Prop :=
  ∀ id scope parent, h.get? id = some scope → scope.parent = some parent → parent < id

/-- A binding that is found is where it is said to be. -/
theorem Resolves.get?_owner {h : Heap} {name : Name} {id owner : ScopeId} {v : Value}
    (hr : h.Resolves name id owner v) :
    ∃ scope, h.get? owner = some scope ∧ scope.bindings.find? name = some v := by
  induction hr with
  | here hs hv => exact ⟨_, hs, hv⟩
  | outward _ _ _ _ ih => exact ih

theorem owner?_of_resolves {h : Heap} (hp : h.ParentsOlder) {name : Name} {id owner : ScopeId}
    {v : Value} (hr : h.Resolves name id owner v) : h.owner? id name = some owner := by
  induction hr with
  | here hs hv =>
    have hb := Bindings.binds_eq_true.mpr ⟨_, hv⟩
    rw [owner?]
    simp [hs, hb]
  | outward hs hn hpar _ ih =>
    have hb := Bindings.binds_eq_false.mpr hn
    have hlt := hp _ _ _ hs hpar
    rw [owner?]
    simp [hs, hb, hpar, hlt, ih]

theorem owner?_of_unbound {h : Heap} {name : Name} {id : ScopeId} (hu : h.Unbound name id) :
    h.owner? id name = none := by
  induction hu with
  | outermost hs hn hpar =>
    have hb := Bindings.binds_eq_false.mpr hn
    rw [owner?]
    simp [hs, hb, hpar]
  | outward hs hn hpar _ ih =>
    have hb := Bindings.binds_eq_false.mpr hn
    rw [owner?]
    simp [hs, hb, hpar, ih]

theorem lookup?_of_resolves {h : Heap} (hp : h.ParentsOlder) {name : Name} {id owner : ScopeId}
    {v : Value} (hr : h.Resolves name id owner v) : h.lookup? id name = some v := by
  obtain ⟨scope, hs, hv⟩ := hr.get?_owner
  simp [lookup?, owner?_of_resolves hp hr, hs, hv]

theorem lookup?_of_unbound {h : Heap} {name : Name} {id : ScopeId} (hu : h.Unbound name id) :
    h.lookup? id name = none := by
  simp [lookup?, owner?_of_unbound hu]

/-- A name is either bound somewhere on the way out or it is not. -/
theorem resolves_or_unbound {h : Heap} (hp : h.ParentsOlder) (name : Name) {id : ScopeId}
    (hid : id < h.size) : (∃ owner v, h.Resolves name id owner v) ∨ h.Unbound name id := by
  induction id using Nat.strongRecOn with
  | ind id ih =>
    obtain ⟨scope, hs⟩ := exists_get?_of_lt hid
    cases hv : scope.bindings.find? name with
    | some v => exact Or.inl ⟨id, v, .here hs hv⟩
    | none =>
      cases hpar : scope.parent with
      | none => exact Or.inr (.outermost hs hv hpar)
      | some parent =>
        have hlt := hp _ _ _ hs hpar
        rcases ih parent hlt (Nat.lt_trans hlt hid) with ⟨owner, v, hr⟩ | hu
        · exact Or.inl ⟨owner, v, .outward hs hv hpar hr⟩
        · exact Or.inr (.outward hs hv hpar hu)

theorem resolves_of_owner? {h : Heap} (hp : h.ParentsOlder) {name : Name} {id owner : ScopeId}
    (hid : id < h.size) (ho : h.owner? id name = some owner) :
    ∃ v, h.Resolves name id owner v := by
  rcases resolves_or_unbound hp name hid with ⟨owner', v, hr⟩ | hu
  · rw [owner?_of_resolves hp hr, Option.some.injEq] at ho
    exact ⟨v, ho ▸ hr⟩
  · rw [owner?_of_unbound hu] at ho
    cases ho

theorem resolves_of_lookup? {h : Heap} (hp : h.ParentsOlder) {name : Name} {id : ScopeId}
    {v : Value} (hid : id < h.size) (hl : h.lookup? id name = some v) :
    ∃ owner, h.Resolves name id owner v := by
  rcases resolves_or_unbound hp name hid with ⟨owner, w, hr⟩ | hu
  · rw [lookup?_of_resolves hp hr, Option.some.injEq] at hl
    exact ⟨owner, hl ▸ hr⟩
  · rw [lookup?_of_unbound hu] at hl
    cases hl

theorem unbound_of_owner? {h : Heap} (hp : h.ParentsOlder) {name : Name} {id : ScopeId}
    (hid : id < h.size) (ho : h.owner? id name = none) : h.Unbound name id := by
  rcases resolves_or_unbound hp name hid with ⟨owner, v, hr⟩ | hu
  · rw [owner?_of_resolves hp hr] at ho
    cases ho
  · exact hu

theorem unbound_of_lookup? {h : Heap} (hp : h.ParentsOlder) {name : Name} {id : ScopeId}
    (hid : id < h.size) (hl : h.lookup? id name = none) : h.Unbound name id := by
  rcases resolves_or_unbound hp name hid with ⟨owner, v, hr⟩ | hu
  · rw [lookup?_of_resolves hp hr] at hl
    cases hl
  · exact hu

end Heap

end Egg
