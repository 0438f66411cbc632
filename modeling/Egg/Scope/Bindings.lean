import Egg.Value.Basic

/-!
# Bindings

The bindings of one scope: names with their values, each name once. They are held in ascending order
of the names, so the same bindings made in another order are the same object.
-/

namespace Egg

/-- Whether entries stand in strictly ascending order of their names. -/
def Ascending (entries : List (Name × Value)) : Prop := entries.Pairwise (·.1 < ·.1)

/-- Entries with the value of a name replaced, or the name put in its place. -/
def insertEntry (name : Name) (value : Value) : List (Name × Value) → List (Name × Value)
  | [] => [(name, value)]
  | (n, v) :: rest =>
    if name = n then (name, value) :: rest
    else if name < n then (name, value) :: (n, v) :: rest
    else (n, v) :: insertEntry name value rest

/-- The value of a name among entries. -/
def entryValue? (name : Name) : List (Name × Value) → Option Value
  | [] => none
  | (n, v) :: rest => if name = n then some v else entryValue? name rest

theorem mem_insertEntry {name : Name} {value : Value} {entries : List (Name × Value)}
    {x : Name × Value} (h : x ∈ insertEntry name value entries) :
    x = (name, value) ∨ x ∈ entries := by
  induction entries with
  | nil => simpa [insertEntry] using h
  | cons e rest ih =>
    obtain ⟨n, v⟩ := e
    simp only [insertEntry] at h
    split at h
    · simp only [List.mem_cons] at h ⊢
      rcases h with h | h
      · exact Or.inl h
      · exact Or.inr (Or.inr h)
    · split at h
      · simpa using h
      · simp only [List.mem_cons] at h ⊢
        rcases h with h | h
        · exact Or.inr (Or.inl h)
        · rcases ih h with h | h
          · exact Or.inl h
          · exact Or.inr (Or.inr h)

theorem ascending_insertEntry (name : Name) (value : Value) {entries : List (Name × Value)}
    (h : Ascending entries) : Ascending (insertEntry name value entries) := by
  induction entries with
  | nil => exact List.pairwise_singleton _ _
  | cons e rest ih =>
    obtain ⟨n, v⟩ := e
    obtain ⟨hlow, hrest⟩ := List.pairwise_cons.mp h
    simp only [insertEntry]
    split
    · next heq => exact List.pairwise_cons.mpr ⟨fun x hx => heq ▸ hlow x hx, hrest⟩
    · next hne =>
      split
      · next hlt =>
        refine List.pairwise_cons.mpr ⟨fun x hx => ?_, h⟩
        rcases List.mem_cons.mp hx with rfl | hx
        · exact hlt
        · exact String.lt_trans hlt (hlow x hx)
      · next hnlt =>
        refine List.pairwise_cons.mpr ⟨fun x hx => ?_, ih hrest⟩
        rcases mem_insertEntry hx with rfl | hx
        · exact Std.lt_of_le_of_ne (String.not_lt.mp hnlt) (Ne.symm hne)
        · exact hlow x hx

/-- The bindings of one scope. -/
structure Bindings where
  /-- The names with their values. -/
  entries : List (Name × Value)
  /-- The names are in ascending order, hence distinct. -/
  ascending : Ascending entries

namespace Bindings

/-- No bindings. -/
def empty : Bindings := ⟨[], List.Pairwise.nil⟩

/-- The bindings with a name bound to a value, in place of what it was bound to. -/
def insert (b : Bindings) (name : Name) (value : Value) : Bindings :=
  ⟨insertEntry name value b.entries, ascending_insertEntry name value b.ascending⟩

/-- The value that a name is bound to. -/
def find? (b : Bindings) (name : Name) : Option Value := entryValue? name b.entries

/-- Whether a name is bound. -/
def binds (b : Bindings) (name : Name) : Bool := (b.find? name).isSome

/-- The bound names, in ascending order. -/
def names (b : Bindings) : List Name := b.entries.map (·.1)

/-- The bindings of names to values, where the last value counts if a name is given twice. -/
def ofList (entries : List (Name × Value)) : Bindings :=
  entries.foldl (fun b (name, value) => b.insert name value) empty

/-- What every program finds: the truth values and the native functions. -/
def global : Bindings :=
  ofList (("true", .bool true) :: ("false", .bool false) ::
    Builtin.all.map fun b => (b.name, .native b))

end Bindings

end Egg
