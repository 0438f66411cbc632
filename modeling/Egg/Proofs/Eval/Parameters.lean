import Egg.Proofs.Eval.Identity
import Egg.Proofs.Eval.UnusedNames
import Egg.Proofs.Scope.Chain
import Mathlib

/-!
# Parameters

A call of a function makes a scope of its own, inside of the one that the function was made in, and
there the parameters are bound to the arguments, one after the other. So a parameter that is given
twice has the last of its arguments (`Bindings.find?_ofList_zip`), and every name that is no parameter
stands for what it stands for where the function was made (`Heap.owner?_push_of_find?_eq_none`). A call
with another number of arguments makes nothing.
-/

namespace Egg

/-! ## The bindings of a call -/

namespace Bindings

/-- A parameter is bound to the argument at its last place. -/
theorem find?_ofList_zip {params : List Name} {args : List Value} {i : Nat} {name : Name} {v : Value}
    (hname : params[i]? = some name) (hv : args[i]? = some v)
    (hlast : ∀ j, i < j → params[j]? ≠ some name) :
    (ofList (params.zip args)).find? name = some v := by
  have hentry : (params.zip args)[i]? = some (name, v) :=
    List.getElem?_zip_eq_some.mpr ⟨hname, hv⟩
  obtain ⟨hi, hget⟩ := List.getElem?_eq_some_iff.mp hentry
  have hsplit : params.zip args =
      (params.zip args).take i ++ (name, v) :: (params.zip args).drop (i + 1) := by
    rw [← hget, ← List.drop_eq_getElem_cons hi, List.take_append_drop]
  rw [hsplit]
  -- what is bound behind the last place of the name are other names
  refine find?_ofList_append _ _ v fun hmem => ?_
  obtain ⟨p, hp, rfl⟩ := List.mem_map.mp hmem
  obtain ⟨k, hk⟩ := List.mem_iff_getElem?.mp hp
  rw [List.getElem?_drop, List.getElem?_zip_eq_some] at hk
  exact hlast (i + 1 + k) (by omega) hk.1

/-- Every parameter has a last place. -/
theorem exists_last_place {params : List Name} {name : Name} (h : name ∈ params) :
    ∃ i : Nat, params[i]? = some name ∧ ∀ j, i < j → params[j]? ≠ some name := by
  induction params with
  | nil => cases h
  | cons p params ih =>
    by_cases hlater : name ∈ params
    · obtain ⟨i, hi, hlast⟩ := ih hlater
      refine ⟨i + 1, hi, ?_⟩
      rintro (_ | j) hj
      · omega
      · exact hlast j (by omega)
    · obtain rfl : name = p := (List.mem_cons.mp h).resolve_right hlater
      refine ⟨0, rfl, ?_⟩
      rintro (_ | j) hj hname
      · omega
      · exact hlater (List.mem_of_getElem? hname)

/-- A call with as many arguments as parameters binds the parameters and nothing else. -/
theorem binds_ofList_zip {params : List Name} {args : List Value}
    (hlength : params.length = args.length) {name : Name} :
    (∃ v, (ofList (params.zip args)).find? name = some v) ↔ name ∈ params := by
  constructor
  · rintro ⟨v, hv⟩
    by_contra hname
    rw [find?_ofList_zip_of_not_mem hname] at hv
    cases hv
  · intro hname
    obtain ⟨i, hi, hlast⟩ := exists_last_place hname
    obtain ⟨hlt, -⟩ := List.getElem?_eq_some_iff.mp hi
    exact ⟨args[i], find?_ofList_zip hi (List.getElem?_eq_getElem (by omega)) hlast⟩

end Bindings

/-! ## A scope inside of another one -/

namespace Heap

variable {h : Heap} {name : Name}

/-- From the scopes that were there, a new scope is not seen. -/
theorem owner?_push_of_lt {id : ScopeId} (hid : id < h.size) (bindings : Bindings)
    (parent : Option ScopeId) : (h.push bindings parent).owner? id name = h.owner? id name := by
  induction id using Nat.strongRecOn with
  | ind id ih =>
    rw [owner?, owner?, get?_push_of_lt hid]
    cases hs : h.get? id with
    | none => rfl
    | some scope =>
      cases hp : scope.parent with
      | none => simp only [hp]
      | some outer =>
        by_cases hlt : outer < id
        · simp only [hp, if_pos hlt, ih outer hlt (hlt.trans hid)]
        · simp only [hp, if_neg hlt]

/-- A name that a new scope does not bind is looked for where the scope lies. -/
theorem owner?_push_of_find?_eq_none {bindings : Bindings} (hname : bindings.find? name = none)
    (parent : ScopeId) :
    (h.push bindings (some parent)).owner? h.size name = h.owner? parent name := by
  have hbinds := Bindings.binds_eq_false.mpr hname
  rw [owner?, get?_push, if_pos rfl]
  simp only [hbinds, Bool.false_eq_true, if_false]
  by_cases hlt : parent < h.size
  · rw [if_pos hlt, owner?_push_of_lt hlt]
  · have hnone : h.get? parent = none := get?_eq_none_iff.mpr (Nat.le_of_not_lt hlt)
    rw [if_neg hlt, owner?, hnone]

theorem lookup?_push_of_find?_eq_none {bindings : Bindings} (hname : bindings.find? name = none)
    (parent : ScopeId) :
    (h.push bindings (some parent)).lookup? h.size name = h.lookup? parent name := by
  rw [lookup?_eq_bind, lookup?_eq_bind, owner?_push_of_find?_eq_none hname]
  simp only [bindingAt_push_of_find?_eq_none hname]

/-- A binding of a scope itself is the first one to be found. -/
theorem lookup?_of_bindingAt {id : ScopeId} {v : Value} (hv : h.bindingAt id name = some v) :
    h.lookup? id name = some v := by
  obtain ⟨scope, hs, hfind⟩ := Option.bind_eq_some_iff.mp hv
  have hbinds := Bindings.binds_eq_true.mpr ⟨v, hfind⟩
  have howner : h.owner? id name = some id := by
    rw [owner?, hs]
    simp only [hbinds, if_true]
  rw [lookup?_eq_bind, howner, Option.bind_some, hv]

end Heap

/-! ## Calls -/

/-- `h'` is `h` with the scope `id` for a call of the function `c` on `args`. -/
structure Heap.OpensScope (h h' : Heap) (id : ScopeId) (c : Closure) (args : List Value) : Prop where
  /-- The scope is none of those that were there. -/
  fresh : h.get? id = none
  others : ∀ j, j ≠ id → h'.get? j = h.get? j
  parent : (h'.get? id).map Scope.parent = some (some c.scope)
  owns : ∀ name, (∃ v, h'.bindingAt id name = some v) ↔ name ∈ c.params
  /-- Of equal parameters the last one counts. -/
  last : ∀ (i : Nat) name v, c.params[i]? = some name → args[i]? = some v →
    (∀ j, i < j → c.params[j]? ≠ some name) →
      h'.bindingAt id name = some v ∧ h'.lookup? id name = some v
  outward : ∀ name, name ∉ c.params → h'.owner? id name = h.owner? c.scope name ∧
    h'.lookup? id name = h.lookup? c.scope name

theorem Heap.opensScope_push {c : Closure} {args : List Value}
    (hlength : c.params.length = args.length) (h : Heap) :
    h.OpensScope (h.push (.ofList (c.params.zip args)) (some c.scope)) h.size c args := by
  have hget : (h.push (.ofList (c.params.zip args)) (some c.scope)).get? h.size =
      some ⟨.ofList (c.params.zip args), some c.scope⟩ := by
    rw [get?_push, if_pos rfl]
  refine ⟨get?_eq_none_iff.mpr le_rfl, ?_, ?_, ?_, ?_, ?_⟩
  · intro j hj
    rw [get?_push, if_neg hj]
  · rw [hget]
    rfl
  · intro name
    rw [bindingAt_of_get? hget]
    exact Bindings.binds_ofList_zip hlength
  · intro i name v hname hv hlast
    have hbinding := Bindings.find?_ofList_zip hname hv hlast
    rw [← bindingAt_of_get? hget] at hbinding
    exact ⟨hbinding, lookup?_of_bindingAt hbinding⟩
  · intro name hname
    have hnone := Bindings.find?_ofList_zip_of_not_mem hname args
    exact ⟨owner?_push_of_find?_eq_none hnone c.scope, lookup?_push_of_find?_eq_none hnone c.scope⟩

/-- The state in which the body of a function is evaluated. -/
def State.enterCall (s : State) (c : Closure) (args : List Value) : State :=
  (s.push (.ofList (c.params.zip args)) (some c.scope)).2

namespace Machine

variable {tag : Tag} {c : Closure} {args : List Value}

theorem apply_of_length_eq (hlength : c.params.length = args.length) (stack : List Frame)
    (s : State) : apply (.function tag c) args stack s =
      evaluate c.body s.heap.size stack (s.enterCall c args) := by
  rw [apply, if_pos hlength]
  rfl

theorem apply_of_length_ne (hlength : c.params.length ≠ args.length) (stack : List Frame)
    (s : State) : apply (.function tag c) args stack s = .finished (.error
      (.arityMismatch (Value.function tag c).describe c.params.length args.length)) s := by
  rw [apply, if_neg hlength]
  rfl

/-- The scope of a call stays where it is. -/
theorem exists_scope_of_run_enterCall (c : Closure) (args : List Value) (s : State) (n : Nat)
    (stack : List Frame) :
    ∃ scope, (run n ⟨.evaluate c.body s.heap.size, stack, s.enterCall c args⟩).state.heap.get?
      s.heap.size = some scope ∧ scope.parent = some c.scope := by
  have hget : (s.enterCall c args).heap.get? s.heap.size =
      some ⟨.ofList (c.params.zip args), some c.scope⟩ := by
    rw [State.enterCall, State.heap_push, Heap.get?_push, if_pos rfl]
  obtain ⟨scope, hs, hp, -⟩ :=
    run_extends n ⟨.evaluate c.body s.heap.size, stack, s.enterCall c args⟩ _ _ hget
  exact ⟨scope, hs, hp⟩

end Machine

/-- A function that is applied to as many arguments as it has parameters has its body evaluated in a
scope made for this call: the scope is a new one, inside of that of the function, and owns the
parameters and nothing else. Each of them is bound to the argument at its last place, and all other
names stand for what they stand for in the scope of the function. Making it prints nothing, and at every
later moment the scope is still there, so that no other call gets it. On any other number of arguments
the application fails, and everything stays as it is. -/
theorem apply_binds_parameters (tag : Tag) (c : Closure) (args : List Value) (s : State) :
    (c.params.length = args.length → ∃ id s',
      s.heap.OpensScope s'.heap id c args ∧ s'.sink = s.sink ∧
      (∀ stack, Machine.apply (.function tag c) args stack s = Machine.evaluate c.body id stack s' ∧
        ∀ n, ∃ scope, (Machine.run n ⟨.evaluate c.body id, stack, s'⟩).state.heap.get? id = some scope ∧
          scope.parent = some c.scope) ∧
      ∀ steps, Program.apply steps (.function tag c) args s = Program.evaluate steps c.body id s') ∧
    (c.params.length ≠ args.length → ∃ x,
      x = .arityMismatch (Value.function tag c).describe c.params.length args.length ∧
      (∀ stack, Machine.apply (.function tag c) args stack s = .finished (.error x) s) ∧
      ∀ steps, Program.apply steps (.function tag c) args s = some (.error (.evaluation x), s)) := by
  constructor
  · intro hlength
    refine ⟨s.heap.size, s.enterCall c args, s.heap.opensScope_push hlength, rfl, ?_, ?_⟩
    · intro stack
      exact ⟨Machine.apply_of_length_eq hlength stack s,
        fun n => Machine.exists_scope_of_run_enterCall c args s n stack⟩
    · intro steps
      rw [Program.apply_eq, Machine.apply_of_length_eq hlength]
      rfl
  · intro hlength
    refine ⟨_, rfl, fun stack => Machine.apply_of_length_ne hlength stack s, ?_⟩
    intro steps
    rw [Program.apply_eq, Machine.apply_of_length_ne hlength]
    rfl

/-- A call of `fun(x, y, x, x)` on three texts, and one without arguments. -/
theorem apply_binds_parameters_repeated :
    ∃ (c : Closure) (args : List Value) (s : State),
      c = ⟨["x", "y", "x"], .word "x", 1⟩ ∧ args = [.text "a", .text "b", .text "c"] ∧
      s = (State.initial .silent).pushProgram.2 ∧
      (∃ id s', s.heap.OpensScope s'.heap id c args ∧ s'.heap.lookup? id "x" = some (.text "c") ∧
        s'.heap.lookup? id "true" = some (.bool true) ∧
        Program.apply 2 (.function 0 c) args s = some (.ok (.text "c"), s')) ∧
      Program.apply 2 (.function 0 c) [] s =
        some (.error (.evaluation (.arityMismatch "<function(x, y, x)>" 3 0)), s) := by
  refine ⟨_, _, _, rfl, rfl, rfl, ?_, ?_⟩
  · obtain ⟨id, s', hopens, -, -, happly⟩ := (apply_binds_parameters 0 ⟨["x", "y", "x"], .word "x", 1⟩
      [.text "a", .text "b", .text "c"] (State.initial .silent).pushProgram.2).1 rfl
    have hlast : ∀ j, 2 < j → ["x", "y", "x"][j]? ≠ some "x" := by
      intro j hj
      rw [List.getElem?_eq_none hj]
      exact (Option.some_ne_none "x").symm
    have hx : s'.heap.lookup? id "x" = some (.text "c") := (hopens.last 2 "x" _ rfl rfl hlast).2
    have htrue : (State.initial .silent).pushProgram.2.heap.lookup? 1 "true" = some (.bool true) := by
      cbv
    refine ⟨id, s', hopens, hx, (hopens.outward "true" (by decide)).2.trans htrue, ?_⟩
    rw [happly]
    simp only [Program.evaluate, Machine.run, Machine.step, Machine.enter, hx]
    rfl
  · obtain ⟨x, rfl, -, hfails⟩ := (apply_binds_parameters 0 ⟨["x", "y", "x"], .word "x", 1⟩ []
      (State.initial .silent).pushProgram.2).2 (by decide)
    exact hfails 2

end Egg
