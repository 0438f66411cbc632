import Egg.Eval.Machine
import Egg.Proofs.Scope.Resolution
import Mathlib

/-!
# The chain of scopes

From a scope the links lead outwards through a chain of scopes. Many scopes have the outer part of
their chains in common, so a binding that is made or changed in one scope may be seen from many.

A name that is looked up stands for its binding in the first scope of the chain that owns it, and an
assignment changes that very binding (`owner?_eq_firstOwner?`, `lookup?_eq_findSome?`). What a write to a
scope changes for the others depends on their chains: it is seen exactly from those whose chain leads
to the scope with no owner of the name before it (`Exposes.lookup?_define`,
`lookup?_define_of_not_exposes`).
-/

namespace Egg.Heap

/-! ## The bindings of a scope itself -/

/-- What a name is bound to in a scope itself. -/
def bindingAt (h : Heap) (id : ScopeId) (name : Name) : Option Value :=
  (h.get? id).bind (·.bindings.find? name)

theorem bindingAt_of_get? {h : Heap} {id : ScopeId} {scope : Scope} (hs : h.get? id = some scope)
    (name : Name) : h.bindingAt id name = scope.bindings.find? name := by
  rw [bindingAt, hs, Option.bind_some]

/-- A definition changes one binding of one scope. -/
theorem bindingAt_define {h : Heap} {id : ScopeId} (hid : id < h.size) (name m : Name) (j : ScopeId)
    (v : Value) :
    (h.define id name v).bindingAt j m = if j = id ∧ m = name then some v else h.bindingAt j m := by
  obtain ⟨scope, hs⟩ := exists_get?_of_lt hid
  unfold bindingAt
  rw [get?_define]
  by_cases hj : id = j
  · subst hj
    rw [if_pos rfl, hs]
    show (scope.bindings.insert name v).find? m = _
    rw [Bindings.find?_insert]
    simp
  · have hne : ¬ (j = id ∧ m = name) := fun h => hj h.1.symm
    rw [if_neg hj, if_neg hne]

/-! ## Chains -/

/-- The scopes from a given one outwards. -/
def chain (h : Heap) (id : ScopeId) : List ScopeId :=
  match h.get? id with
  | none => []
  | some scope =>
    match scope.parent with
    | none => [id]
    | some parent => if parent < id then id :: h.chain parent else [id]
termination_by id

/-- The first scope on the way out that binds a name. -/
def firstOwner? (h : Heap) (id : ScopeId) (name : Name) : Option ScopeId :=
  (h.chain id).find? fun j => (h.bindingAt j name).isSome

/-- The chain of a scope is the scope itself and the chain of its parent. -/
theorem chain_eq_cons {h : Heap} (ho : h.ParentsOlder) {id : ScopeId} {scope : Scope}
    (hs : h.get? id = some scope) : h.chain id = id :: (scope.parent.map h.chain).getD [] := by
  unfold chain
  cases hp : scope.parent with
  | none => simp only [hs, hp, Option.map_none, Option.getD_none]
  | some parent =>
    have hlt := ho id scope parent hs hp
    simp only [hs, hp, if_pos hlt, Option.map_some, Option.getD_some]

/-- Only the links make the chain. -/
theorem chain_congr {h h' : Heap}
    (hlinks : ∀ id, (h'.get? id).map Scope.parent = (h.get? id).map Scope.parent) (id : ScopeId) :
    h'.chain id = h.chain id := by
  induction id using Nat.strongRecOn with
  | ind id ih =>
    have hlink := hlinks id
    rw [chain, chain]
    cases hs : h.get? id with
    | none =>
      rw [hs] at hlink
      rw [Option.map_eq_none_iff.mp hlink]
    | some scope =>
      rw [hs] at hlink
      obtain ⟨scope', hs', hparent⟩ := Option.map_eq_some_iff.mp hlink
      simp only [hs', hparent]
      cases hp : scope.parent with
      | none => rfl
      | some parent =>
        by_cases hlt : parent < id
        · simp only [if_pos hlt, ih parent hlt]
        · simp only [if_neg hlt]

theorem map_parent_define (h : Heap) (id : ScopeId) (name : Name) (v : Value) (j : ScopeId) :
    ((h.define id name v).get? j).map Scope.parent = (h.get? j).map Scope.parent := by
  rw [get?_define]
  split
  · rw [Option.map_map]
    rfl
  · rfl

theorem chain_define (h : Heap) (id : ScopeId) (name : Name) (v : Value) (j : ScopeId) :
    (h.define id name v).chain j = h.chain j :=
  chain_congr (h.map_parent_define id name v) j

/-! ## Walking along a chain -/

/-- Looking for the owner of a name means walking along the chain. -/
theorem owner?_eq_firstOwner? (h : Heap) (id : ScopeId) (name : Name) :
    h.owner? id name = h.firstOwner? id name := by
  unfold firstOwner?
  induction id using Nat.strongRecOn with
  | ind id ih =>
    rw [owner?, chain]
    cases hs : h.get? id with
    | none => rfl
    | some scope =>
      have hself : (h.bindingAt id name).isSome = scope.bindings.binds name := by
        rw [bindingAt_of_get? hs, Bindings.binds]
      have hwalk : ∀ rest : List ScopeId,
          (id :: rest).find? (fun j => (h.bindingAt j name).isSome) =
            if scope.bindings.binds name = true then some id
            else rest.find? fun j => (h.bindingAt j name).isSome := by
        intro rest
        rw [List.find?_cons, hself]
        cases scope.bindings.binds name <;> rfl
      cases hp : scope.parent with
      | none => simp only [hp, hwalk, List.find?_nil]
      | some parent =>
        by_cases hlt : parent < id
        · simp only [hp, if_pos hlt, hwalk, ih parent hlt]
        · simp only [hp, if_neg hlt, hwalk, List.find?_nil]

theorem lookup?_eq_bind (h : Heap) (id : ScopeId) (name : Name) :
    h.lookup? id name = (h.owner? id name).bind fun owner => h.bindingAt owner name := by
  rw [lookup?]
  cases h.owner? id name <;> rfl

/-- The value of a name is that of the first binding along the chain. -/
theorem lookup?_eq_findSome? (h : Heap) (id : ScopeId) (name : Name) :
    h.lookup? id name = (h.chain id).findSome? fun j => h.bindingAt j name := by
  rw [lookup?_eq_bind, owner?_eq_firstOwner?, firstOwner?]
  induction h.chain id with
  | nil => rfl
  | cons j rest ih =>
    rw [List.find?_cons, List.findSome?_cons]
    cases hj : h.bindingAt j name with
    | none => simpa using ih
    | some v => simp [hj]

/-- The chain of `id` leads to the scope `owner`, and no scope before it binds the name. -/
def Exposes (h : Heap) (name : Name) (id owner : ScopeId) : Prop :=
  ∃ inner outer, h.chain id = inner ++ owner :: outer ∧ ∀ j ∈ inner, h.bindingAt j name = none

theorem firstOwner?_eq_some_iff {h : Heap} {id owner : ScopeId} {name : Name} :
    h.firstOwner? id name = some owner ↔
      h.Exposes name id owner ∧ ∃ v, h.bindingAt owner name = some v := by
  rw [firstOwner?, List.find?_eq_some_iff_append, Option.isSome_iff_exists, and_comm]
  simp [Exposes]

/-- An owner is a scope of the heap. -/
theorem lt_size_of_firstOwner? {h : Heap} {id owner : ScopeId} {name : Name}
    (ho : h.firstOwner? id name = some owner) : owner < h.size := by
  obtain ⟨-, v, hv⟩ := firstOwner?_eq_some_iff.mp ho
  obtain ⟨scope, hs, -⟩ := Option.bind_eq_some_iff.mp hv
  by_contra hge
  rw [get?_eq_none_iff.mpr (Nat.le_of_not_lt hge)] at hs
  cases hs

/-! ## What a write changes -/

/-- From where the scope of a definition is exposed, the definition is seen. -/
theorem Exposes.lookup?_define {h : Heap} {id j : ScopeId} {name : Name} (he : h.Exposes name j id)
    (hid : id < h.size) (v : Value) : (h.define id name v).lookup? j name = some v := by
  obtain ⟨inner, outer, hchain, hinner⟩ := he
  rw [lookup?_eq_findSome?, chain_define, hchain]
  clear hchain
  induction inner with
  | nil => rw [List.nil_append, List.findSome?_cons, bindingAt_define hid, if_pos ⟨rfl, rfl⟩]
  | cons k inner ih =>
    obtain ⟨hk, hinner⟩ := List.forall_mem_cons.mp hinner
    rw [List.cons_append, List.findSome?_cons, bindingAt_define hid, hk]
    split
    · next w hw =>
      split at hw
      · exact hw.symm
      · cases hw
    · exact ih hinner

/-- From elsewhere, and for other names, it is not. -/
theorem lookup?_define_of_not_exposes {h : Heap} {id j : ScopeId} {name m : Name}
    (hid : id < h.size) (hn : ¬ (m = name ∧ h.Exposes name j id)) (v : Value) :
    (h.define id name v).lookup? j m = h.lookup? j m := by
  unfold Exposes at hn
  rw [lookup?_eq_findSome?, lookup?_eq_findSome?, chain_define]
  generalize h.chain j = scopes at hn
  induction scopes with
  | nil => rfl
  | cons k rest ih =>
    have hk : ¬ (k = id ∧ m = name) := by
      rintro ⟨rfl, rfl⟩
      exact hn ⟨rfl, [], rest, rfl, by simp⟩
    rw [List.findSome?_cons, List.findSome?_cons, bindingAt_define hid, if_neg hk]
    cases hbinding : h.bindingAt k m with
    | some w => rfl
    | none =>
      refine ih ?_
      rintro ⟨rfl, inner, outer, rfl, hinner⟩
      exact hn ⟨rfl, k :: inner, outer, rfl, List.forall_mem_cons.mpr ⟨hbinding, hinner⟩⟩

/-- A scope exposes itself. -/
theorem exposes_self {h : Heap} (ho : h.ParentsOlder) {id : ScopeId} (hid : id < h.size)
    (name : Name) : h.Exposes name id id := by
  obtain ⟨scope, hs⟩ := exists_get?_of_lt hid
  exact ⟨[], _, chain_eq_cons ho hs, by simp⟩

theorem assign?_eq_some_iff {h h' : Heap} {id : ScopeId} {name : Name} {v : Value} :
    h.assign? id name v = some h' ↔
      ∃ owner, h.firstOwner? id name = some owner ∧ h' = h.define owner name v := by
  rw [assign?, owner?_eq_firstOwner?]
  cases h.firstOwner? id name with
  | none => simp
  | some owner => simp [eq_comm]

theorem assign?_eq_none_iff {h : Heap} {id : ScopeId} {name : Name} {v : Value} :
    h.assign? id name v = none ↔ h.lookup? id name = none := by
  rw [assign?, owner?_eq_firstOwner?, lookup?_eq_bind, owner?_eq_firstOwner?]
  cases ho : h.firstOwner? id name with
  | none => simp
  | some owner =>
    obtain ⟨-, w, hw⟩ := firstOwner?_eq_some_iff.mp ho
    simp [hw]

/-! ## The laws of scopes -/

/-- The heaps differ in one binding only: in `h'` the scope `id` binds the name to the value. -/
structure DiffersAt (h h' : Heap) (id : ScopeId) (name : Name) (v : Value) : Prop where
  bindings : ∀ j m, h'.bindingAt j m = if j = id ∧ m = name then some v else h.bindingAt j m
  links : ∀ j, (h'.get? j).map Scope.parent = (h.get? j).map Scope.parent

theorem differsAt_define {h : Heap} {id : ScopeId} (hid : id < h.size) (name : Name) (v : Value) :
    h.DiffersAt (h.define id name v) id name v :=
  ⟨fun j m => bindingAt_define hid name m j v, h.map_parent_define id name v⟩

/-- In a heap whose links lead to older scopes, the following holds of every scope, name and value.
The name stands for its binding in the first scope of the chain that owns it, and for nothing if none
does. An assignment succeeds exactly if the name stands for something. Then it changes that binding
and no other, and is seen from those scopes whose first owner of the name is the same; otherwise it
is refused, and the state stays as it is. A definition changes the binding of the name in the scope
itself, and is seen from those scopes whose chain leads there with no owner of the name before. -/
theorem lookup_assign_define_laws {h : Heap} (ho : h.ParentsOlder) {id : ScopeId} (hid : id < h.size)
    (name : Name) (v : Value) :
    (∀ j scope, h.get? j = some scope → h.chain j = j :: (scope.parent.map h.chain).getD []) ∧
    (h.lookup? id name = (h.firstOwner? id name).bind (h.bindingAt · name) ∧
      (h.lookup? id name = none ↔ ∀ j ∈ h.chain id, h.bindingAt j name = none)) ∧
    ((∃ h', h.assign? id name v = some h') ↔ ∃ w, h.lookup? id name = some w) ∧
    (∀ h', h.assign? id name v = some h' → ∃ owner, h.firstOwner? id name = some owner ∧
      (∃ w, h.bindingAt owner name = some w) ∧ h.DiffersAt h' owner name v ∧
      h'.lookup? id name = some v ∧
      ∀ j m, h'.lookup? j m ≠ h.lookup? j m → m = name ∧ h.firstOwner? j name = some owner) ∧
    (h.assign? id name v = none → ∀ (s : State) (stack : List Frame), s.heap = h →
      s.assign? id name v = none ∧
        Machine.resume v (.assign name id) stack s = Machine.fail (.unknownVariable name) s) ∧
    (h.DiffersAt (h.define id name v) id name v ∧ (h.define id name v).lookup? id name = some v ∧
      ∀ j m, (h.define id name v).lookup? j m ≠ h.lookup? j m →
        m = name ∧ h.Exposes name j id) := by
  have hseen : ∀ {owner}, owner < h.size → ∀ j m,
      (h.define owner name v).lookup? j m ≠ h.lookup? j m → m = name ∧ h.Exposes name j owner := by
    intro owner howner j m hchanged
    by_contra hn
    exact hchanged (lookup?_define_of_not_exposes howner hn v)
  refine ⟨fun j scope hs => chain_eq_cons ho hs, ⟨?_, ?_⟩, ?_, fun h' hassign => ?_, ?_, ?_⟩
  · rw [lookup?_eq_bind, owner?_eq_firstOwner?]
  · rw [lookup?_eq_findSome?, List.findSome?_eq_none_iff]
  · rw [← Option.ne_none_iff_exists', ← Option.ne_none_iff_exists', ne_eq, assign?_eq_none_iff]
  · obtain ⟨owner, howner, rfl⟩ := assign?_eq_some_iff.mp hassign
    obtain ⟨hexposes, w, hw⟩ := firstOwner?_eq_some_iff.mp howner
    have hlt := lt_size_of_firstOwner? howner
    refine ⟨owner, howner, ⟨w, hw⟩, differsAt_define hlt name v, hexposes.lookup?_define hlt v, ?_⟩
    intro j m hchanged
    obtain ⟨rfl, hj⟩ := hseen hlt j m hchanged
    exact ⟨rfl, firstOwner?_eq_some_iff.mpr ⟨hj, w, hw⟩⟩
  · rintro hnone s stack rfl
    have howner : s.heap.owner? id name = none := by
      rw [assign?] at hnone
      cases howner : s.heap.owner? id name with
      | none => rfl
      | some owner =>
        rw [howner] at hnone
        cases hnone
    refine ⟨?_, by simp only [Machine.resume, howner]⟩
    rw [State.assign?, hnone]
    rfl
  · exact ⟨differsAt_define hid name v, (exposes_self ho hid name).lookup?_define hid v, hseen hid⟩

/-- Two scopes lie inside of an outermost one. The first of them binds `x` too, and a further scope
lies inside of it. An assignment from there changes the inner `x`, and the other scope does not see
it. -/
theorem lookup_assign_define_laws_shared_outermost :
    ∃ h h' : Heap, h.ParentsOlder ∧ h.chain 3 = [3, 1, 0] ∧ h.chain 2 = [2, 0] ∧
      h.assign? 3 "x" (.text "a") = some h' ∧ h.DiffersAt h' 1 "x" (.text "a") ∧
      h'.lookup? 3 "x" = some (.text "a") ∧ h'.lookup? 2 "x" = some (.bool true) := by
  let h : Heap := (((Heap.empty.push (.ofList [("x", .bool true)]) none).push
    (.ofList [("x", .bool false)]) (some 0)).push .empty (some 0)).push .empty (some 1)
  have ho : h.ParentsOlder := by
    intro id scope parent hs hp
    rcases id with _ | _ | _ | _ | id
    · cases hs
      cases hp
    · cases hs
      cases hp
      decide
    · cases hs
      cases hp
      decide
    · cases hs
      cases hp
      decide
    · cases hs
  have hfirst : h.firstOwner? 3 "x" = some 1 := by cbv
  have hother : h.firstOwner? 2 "x" = some 0 := by cbv
  have hlookup : h.lookup? 2 "x" = some (.bool true) := by cbv
  have hassign : h.assign? 3 "x" (.text "a") = some (h.define 1 "x" (.text "a")) :=
    assign?_eq_some_iff.mpr ⟨1, hfirst, rfl⟩
  have hthree : 3 < h.size := by decide
  obtain ⟨-, -, -, hassigned, -, -⟩ := lookup_assign_define_laws ho hthree "x" (.text "a")
  obtain ⟨owner, howner, -, hdiffers, hself, hseen⟩ := hassigned _ hassign
  obtain rfl : owner = 1 := Option.some.inj (howner.symm.trans hfirst)
  refine ⟨h, _, ho, by cbv, by cbv, hassign, hdiffers, hself, ?_⟩
  by_contra hne
  obtain ⟨-, hone⟩ := hseen 2 "x" fun hsame => hne (hsame.trans hlookup)
  rw [hother] at hone
  cases hone

end Egg.Heap
