import Egg.Proofs.Eval.Identity
import Egg.Proofs.Eval.Lockstep
import Mathlib

/-!
# What cannot be reached does not matter

From a scope, others can be reached by way of its parent and of the functions that are bound in it,
by themselves or inside of arrays. An evaluation leaves a scope alone that cannot be reached from its
own, and its outcome depends only on the scopes that can be, up to a renaming of places and marks.
A program that is run in a scope of its own reaches nothing that was there before, so it does what it
does in the very first state (`Program.unreachable_scopes_irrelevant`).
-/

namespace Egg

open Machine

/-! ## Reachable scopes -/

/-- The scope can be reached from another one. -/
inductive Heap.Reaches (h : Heap) (start : ScopeId) : ScopeId → Prop where
  | start : Reaches h start start
  | parent {id p : ScopeId} {scope : Scope} (hr : Reaches h start id) (hs : h.get? id = some scope)
      (hp : scope.parent = some p) : Reaches h start p
  | captured {id : ScopeId} {scope : Scope} {name : Name} {v : Value} {tag : Tag} {c : Closure}
      (hr : Reaches h start id) (hs : h.get? id = some scope)
      (hv : scope.bindings.find? name = some v) (hin : (Value.function tag c).Inside v) :
      Reaches h start c.scope

/-- A renaming as a correspondence for which all names matter. -/
def Renaming.everywhere (r : Renaming) (left right : Sink) : Correspondence :=
  ⟨r, fun _ => True, left, right⟩

theorem Renaming.covers_everywhere (r : Renaming) (left right : Sink) (e : Expr) :
    (r.everywhere left right).Covers e := fun _ _ => trivial

/-! ## A state and itself -/

/-- What can be reached from a scope, and what will be made later, stays where it is. -/
def Heap.stay (h : Heap) (start : ScopeId) : Renaming where
  scope a b := a = b ∧ (h.Reaches start a ∨ h.size ≤ a)
  mark x y := x = y
  scope_iff h h' := by rw [h.1, h'.1]
  mark_iff h h' := by rw [h, h']

theorem Heap.like_stay (h : Heap) (start : ScopeId) (left right : Sink) :
    h.Like (h.stay start).scope (fun _ => True)
      (Value.Alike ((h.stay start).everywhere left right)) h where
  unique := (h.stay start).scope_iff
  scopes := by
    rintro a b ⟨rfl, hr⟩
    cases hget : h.get? a with
    | none => exact .none
    | some scope =>
      have hr : h.Reaches start a :=
        hr.resolve_right fun hle => Nat.not_lt_of_le hle (Heap.lt_of_get? hget)
      refine .some ⟨fun name _ => ?_, ?_⟩
      · cases hfind : scope.bindings.find? name with
        | none => exact .none
        | some v =>
          refine .some (Value.like_self (fun _ => rfl) v fun tag c hin => ?_)
          have hscope : (h.stay start).scope c.scope c.scope :=
            ⟨rfl, .inl (.captured hr hget hfind hin)⟩
          exact ⟨rfl, hscope, fun _ _ => trivial, Renaming.covers_everywhere _ _ _ c.body⟩
      · cases hparent : scope.parent with
        | none => exact .none
        | some p => exact .some ⟨rfl, .inl (.parent hr hget hparent)⟩
  links := by
    rintro a b here there p q ⟨rfl, -⟩ ha hb hp hq
    rw [ha] at hb
    cases hb
    rw [hp] at hq
    cases hq
    exact Iff.rfl
  newScopes k := ⟨rfl, .inr (Nat.le_add_right _ _)⟩

theorem State.alike_stay (s : State) (start : ScopeId) :
    s.Alike ((s.heap.stay start).everywhere s.sink s.sink) s where
  heap := s.heap.like_stay start s.sink s.sink
  newMarks _ := rfl
  printed := ⟨"", (Sink.append_empty _).symm, (Sink.append_empty _).symm⟩

/-- At every moment of an evaluation, a scope that cannot be reached is as it was. -/
theorem Machine.get?_run_of_not_reaches (n : Nat) (e : Expr) {start id : ScopeId} {s : State}
    (hid : id < s.heap.size) (hun : ¬ s.heap.Reaches start id) :
    (run n ⟨.evaluate e start, [], s⟩).state.heap.get? id = s.heap.get? id := by
  have halike : Config.Alike ((s.heap.stay start).everywhere s.sink s.sink)
      ⟨.evaluate e start, [], s⟩ ⟨.evaluate e start, [], s⟩ :=
    ⟨.evaluate ⟨rfl, .inl .start⟩ (Renaming.covers_everywhere _ _ _ e), .nil, s.alike_stay start⟩
  refine get?_run_of_unrelated n halike hid ?_
  rintro b ⟨-, hr | hle⟩
  · exact hun hr
  · exact Nat.not_lt_of_le hle hid

/-! ## Two states -/

/-- A part of a correspondence suffices for values in which nothing else occurs. -/
theorem Value.Alike.restrict {ρ ρ' : Correspondence} {v w : Value} (h : v.Alike ρ w)
    (hname : ∀ n, ρ'.name n)
    (hmark : ∀ (u u' : Value) x y, u.Inside v → u'.Inside w → u.mark? = some x → u'.mark? = some y →
      ρ.mark x y → ρ'.mark x y)
    (hscope : ∀ x y c c', (Value.function x c).Inside v → (Value.function y c').Inside w →
      ρ.scope c.scope c'.scope → ρ'.scope c.scope c'.scope) : v.Alike ρ' w := by
  induction h with
  | number n => exact .number n
  | text t => exact .text t
  | bool b => exact .bool b
  | native b => exact .native b
  | function hm hparams h =>
    exact .function (hmark _ _ _ _ .self .self rfl rfl hm) hparams
      ⟨h.body, hscope _ _ _ _ .self .self h.scope, fun n _ => hname n, fun n _ => hname n⟩
  | array hm hlength _ ih =>
    refine .array (hmark _ _ _ _ .self .self rfl rfl hm) hlength fun p hp => ?_
    obtain ⟨hv, hw⟩ := List.of_mem_zip hp
    refine ih p hp (fun u u' x y hu hu' => ?_) (fun x y c c' hu hu' => ?_)
    · exact hmark u u' x y (.item hv hu) (.item hw hu')
    · exact hscope x y c c' (.item hv hu) (.item hw hu')

/-- Links lead to older scopes, and marks in use are below the next one. -/
structure State.IsSound (s : State) : Prop where
  links : s.heap.ParentsOlder
  marks : ∀ v tag, s.heap.Holds v → v.mark? = some tag → tag < s.nextTag

theorem Session.Reachable.isSound {σ : Session} (h : σ.Reachable) : σ.state.IsSound :=
  ⟨h.wellFormed.heap.parentsOlder, fun v tag hv => h.isMarked.below v tag (.inl hv)⟩

/-- The scopes that can be reached in both states correspond to each other under a renaming. -/
structure State.AgreeFrom (r : Renaming) (start start' : ScopeId) (s t : State) : Prop where
  starts : r.scope start start'
  scopes : ∀ a b, s.heap.Reaches start a → t.heap.Reaches start' b → r.scope a b →
    ∃ here there, s.heap.get? a = some here ∧ t.heap.get? b = some there ∧
      here.Alike (r.everywhere s.sink t.sink) there

/-- Relations of numbers below a bound, together with the numbers above it in order. -/
theorem shifted_iff {P : Nat → Nat → Prop} {m n : Nat}
    (hP : ∀ {a b a' b'}, P a b → P a' b' → (a = a' ↔ b = b')) {a b a' b' : Nat}
    (h : (P a b ∧ a < m ∧ b < n) ∨ ∃ k, a = m + k ∧ b = n + k)
    (h' : (P a' b' ∧ a' < m ∧ b' < n) ∨ ∃ k, a' = m + k ∧ b' = n + k) : a = a' ↔ b = b' := by
  rcases h with ⟨hab, ha, hb⟩ | ⟨k, rfl, rfl⟩
  · rcases h' with ⟨hab', -, -⟩ | ⟨k, rfl, rfl⟩
    · exact hP hab hab'
    · omega
  · rcases h' with ⟨-, ha', hb'⟩ | ⟨k', rfl, rfl⟩
    · omega
    · omega

/-- The renaming of what can be reached, and of what will be made in both states. -/
def Renaming.after (r : Renaming) (start start' : ScopeId) (s t : State) : Renaming where
  scope a b := ((r.scope a b ∧ s.heap.Reaches start a ∧ t.heap.Reaches start' b) ∧
    a < s.heap.size ∧ b < t.heap.size) ∨ ∃ k, a = s.heap.size + k ∧ b = t.heap.size + k
  mark x y := (r.mark x y ∧ x < s.nextTag ∧ y < t.nextTag) ∨
    ∃ k, x = s.nextTag + k ∧ y = t.nextTag + k
  scope_iff := shifted_iff
    (P := fun a b => r.scope a b ∧ s.heap.Reaches start a ∧ t.heap.Reaches start' b)
    fun h h' => r.scope_iff h.1 h'.1
  mark_iff := shifted_iff r.mark_iff

namespace State.AgreeFrom

variable {r : Renaming} {start start' : ScopeId} {s t : State}

theorem scope_after (h : s.AgreeFrom r start start' t) {a b : ScopeId}
    (ha : s.heap.Reaches start a) (hb : t.heap.Reaches start' b) (hab : r.scope a b) :
    (r.after start start' s t).scope a b := by
  obtain ⟨here, there, hget, hget', -⟩ := h.scopes a b ha hb hab
  exact Or.inl ⟨⟨hab, ha, hb⟩, Heap.lt_of_get? hget, Heap.lt_of_get? hget'⟩

theorem heap_like (h : s.AgreeFrom r start start' t) (hs : s.IsSound) (ht : t.IsSound) :
    s.heap.Like (r.after start start' s t).scope (fun _ => True)
      (Value.Alike ((r.after start start' s t).everywhere s.sink t.sink)) t.heap where
  unique := (r.after start start' s t).scope_iff
  scopes := by
    rintro a b (⟨⟨hab, ha, hb⟩, -, -⟩ | ⟨k, rfl, rfl⟩)
    · obtain ⟨here, there, hget, hget', hscope⟩ := h.scopes a b ha hb hab
      rw [hget, hget']
      refine .some ⟨fun name _ => ?_, ?_⟩
      · rcases rel_cases (hscope.bindings name trivial) with ⟨hv, hw⟩ | ⟨v, w, hv, hw, hvw⟩
        · rw [hv, hw]
          exact .none
        · rw [hv, hw]
          refine .some (hvw.restrict (fun _ => trivial) ?_ ?_)
          · intro u u' x y hu hu' hx hy hxy
            have hlt := hs.marks u x ⟨v, ⟨a, here, name, hget, hv⟩, hu⟩ hx
            have hlt' := ht.marks u' y ⟨w, ⟨b, there, name, hget', hw⟩, hu'⟩ hy
            exact Or.inl ⟨hxy, hlt, hlt'⟩
          · intro x y c c' hc hc' hcc
            exact h.scope_after (.captured ha hget hv hc) (.captured hb hget' hw hc') hcc
      · rcases rel_cases hscope.parent with ⟨hp, hq⟩ | ⟨p, q, hp, hq, hpq⟩
        · rw [hp, hq]
          exact .none
        · rw [hp, hq]
          exact .some (h.scope_after (.parent ha hget hp) (.parent hb hget' hq) hpq)
    · rw [Heap.get?_eq_none_iff.mpr (Nat.le_add_right _ _),
        Heap.get?_eq_none_iff.mpr (Nat.le_add_right _ _)]
      exact .none
  links := by
    intro a b here there p q _ ha hb hp hq
    exact iff_of_true (hs.links a here p ha hp) (ht.links b there q hb hq)
  newScopes k := Or.inr ⟨k, rfl, rfl⟩

theorem alike (h : s.AgreeFrom r start start' t) (hs : s.IsSound) (ht : t.IsSound) :
    s.Alike ((r.after start start' s t).everywhere s.sink t.sink) t where
  heap := h.heap_like hs ht
  newMarks k := Or.inr ⟨k, rfl, rfl⟩
  printed := ⟨"", (Sink.append_empty _).symm, (Sink.append_empty _).symm⟩

end State.AgreeFrom

/-! ## Outcomes -/

/-- Two evaluations, which began in `s` and `t`, have come to the same: both go on, or both have ended
with the same error, or with values that look the same; and they have printed the same. -/
inductive SameOutcome (r : Renaming) (s t : State) : Option Outcome → Option Outcome → Prop where
  | unfinished : SameOutcome r s t none none
  | failed (x : RunError) {s' t' : State} {text : String} (hs : s'.sink = s.sink.append text)
      (ht : t'.sink = t.sink.append text) (hstates : s'.Alike (r.everywhere s.sink t.sink) t') :
      SameOutcome r s t (some (.error x, s')) (some (.error x, t'))
  | returned {v w : Value} {s' t' : State} {text : String}
      (hvalues : v.Alike (r.everywhere s.sink t.sink) w) (hdisplay : v.display = w.display)
      (hdescribe : v.describe = w.describe) (hs : s'.sink = s.sink.append text)
      (ht : t'.sink = t.sink.append text) (hstates : s'.Alike (r.everywhere s.sink t.sink) t') :
      SameOutcome r s t (some (.ok v, s')) (some (.ok w, t'))

theorem Progress.Alike.sameOutcome {r : Renaming} {s t : State} {p q : Progress}
    (h : p.Alike (r.everywhere s.sink t.sink) q) : SameOutcome r s t p.outcome? q.outcome? := by
  cases h with
  | running => exact .unfinished
  | finished hr hstates =>
    obtain ⟨text, hs, ht⟩ := hstates.printed
    cases hr with
    | ok hvw => exact .returned hvw hvw.display_eq hvw.describe_eq hs ht hstates
    | error x => exact .failed (.evaluation x) hs ht hstates

/-- In the very first state, everything has the place and the mark that it would have later less what
is in use by then. -/
def State.shift (s : State) : Renaming where
  scope a b := a = s.heap.size + b
  mark x y := x = s.nextTag + y
  scope_iff h h' := by rw [h, h', Nat.add_left_cancel_iff]
  mark_iff h h' := by rw [h, h', Nat.add_left_cancel_iff]

theorem State.heap_like_shift (s : State) (sink : Sink) :
    s.heap.Like s.shift.scope (fun _ => True) (Value.Alike (s.shift.everywhere s.sink sink))
      (State.initial sink).heap where
  unique := s.shift.scope_iff
  scopes := by
    rintro a b rfl
    rw [Heap.get?_eq_none_iff.mpr (Nat.le_add_right _ _),
      Heap.get?_eq_none_iff.mpr (Nat.zero_le _)]
    exact .none
  links := by
    intro a b here there p q _ _ hb
    cases hb
  newScopes k := congrArg (s.heap.size + ·) (Nat.zero_add k).symm

theorem State.alike_shift (s : State) (sink : Sink) :
    s.Alike (s.shift.everywhere s.sink sink) (.initial sink) where
  heap := s.heap_like_shift sink
  newMarks k := congrArg (s.nextTag + ·) (Nat.zero_add k).symm
  printed := ⟨"", (Sink.append_empty _).symm, (Sink.append_empty _).symm⟩

/-- The scope of a program that is run by itself has nothing but itself and what every program
finds. -/
theorem State.Alike.pushProgram {ρ : Correspondence} {s t : State} (hs : s.Alike ρ t) :
    ρ.scope s.pushProgram.1 t.pushProgram.1 ∧ s.pushProgram.2.Alike ρ t.pushProgram.2 := by
  have hglobal : s.pushGlobal.2.Alike ρ t.pushGlobal.2 :=
    hs.push (.global fun _ hv => hv.like) .none
  exact ⟨hglobal.heap.newScopes 0, hglobal.push .empty (.some (hs.heap.newScopes 0))⟩

/-- The first moment of a program that is run by itself. -/
def Config.program (e : Expr) (s : State) : Config :=
  ⟨.evaluate e s.pushProgram.1, [], s.pushProgram.2⟩

/-- A program begins in every state as it does in the first one. -/
theorem Config.alike_program (e : Expr) (s : State) (sink : Sink) :
    (Config.program e s).Alike (s.shift.everywhere s.sink sink) (.program e (.initial sink)) := by
  obtain ⟨hscope, hstate⟩ := (s.alike_shift sink).pushProgram
  exact ⟨.evaluate hscope (Renaming.covers_everywhere _ _ _ e), .nil, hstate⟩

namespace Program

theorem runSource_of_parse {source : String} {e : Expr} (h : Syntax.parse source = .ok e)
    (steps : Nat) (s : State) : runSource steps source s = (run steps (.program e s)).outcome? := by
  unfold runSource runIn start
  rw [h]
  rfl

theorem evaluate_same {r : Renaming} {start start' : ScopeId} {s t : State} (hs : s.IsSound)
    (ht : t.IsSound) (h : s.AgreeFrom r start start' t) (steps : Nat) (e : Expr) :
    SameOutcome (r.after start start' s t) s t (evaluate steps e start s)
      (evaluate steps e start' t) := by
  have hstart := h.scope_after .start .start h.starts
  exact (run_evaluate_alike steps (h.alike hs ht) hstart
    (Renaming.covers_everywhere _ _ _ e)).sameOutcome

theorem runSource_same (steps : Nat) (source : String) (s : State) (sink : Sink) :
    SameOutcome s.shift s (.initial sink) (runSource steps source s)
      (runSource steps source (.initial sink)) := by
  cases hparse : Syntax.parse source with
  | error x =>
    obtain ⟨-, hstate⟩ := (s.alike_shift sink).pushProgram
    obtain ⟨text, hs, ht⟩ := hstate.printed
    unfold runSource runIn start
    rw [hparse]
    exact .failed (.source x) hs ht hstate
  | ok e =>
    rw [runSource_of_parse hparse, runSource_of_parse hparse]
    exact (run_alike steps (Config.alike_program e s sink)).sameOutcome

theorem get?_of_runSource {steps : Nat} {source : String} {s s' : State}
    {o : Except RunError Value} (h : runSource steps source s = some (o, s')) {id : ScopeId}
    (hid : id < s.heap.size) : s'.heap.get? id = s.heap.get? id := by
  have hglobal : id < s.pushGlobal.2.heap.size :=
    Nat.lt_of_lt_of_le hid (s.before_push .global none).1
  have hprogram : id < s.pushProgram.2.heap.size :=
    Nat.lt_of_lt_of_le hglobal (s.pushGlobal.2.before_push .empty _).1
  have hget : s.pushProgram.2.heap.get? id = s.heap.get? id :=
    (Heap.get?_push_of_lt hglobal _ _).trans (Heap.get?_push_of_lt hid _ _)
  rw [← hget]
  cases hparse : Syntax.parse source with
  | error x =>
    unfold runSource runIn start at h
    rw [hparse] at h
    cases h
    rfl
  | ok e =>
    rw [runSource_of_parse hparse] at h
    rw [← Progress.state_of_outcome? h]
    refine get?_run_of_unrelated steps (Config.alike_program e s s.sink) hprogram ?_
    -- everything that has a counterpart in the first state is newer
    rintro b rfl
    exact Nat.not_lt_of_le (Nat.le_add_right _ _) hid

/-- The state of every session is sound. An evaluation leaves all scopes as they are, at every moment,
that cannot be reached from its own. If the scopes that can be reached in two sound states agree up
to a renaming, then so do the outcomes. A program that is run in a scope of its own, in whatever
state, comes to the same as in the very first state, and changes no scope that was there. -/
theorem unreachable_scopes_irrelevant :
    (∀ σ : Session, σ.Reachable → σ.state.IsSound) ∧
    (∀ n e (s : State) start id, id < s.heap.size → ¬ s.heap.Reaches start id →
      (Machine.run n ⟨.evaluate e start, [], s⟩).state.heap.get? id = s.heap.get? id) ∧
    (∀ (r : Renaming) start start' (s t : State), s.IsSound → t.IsSound →
      s.AgreeFrom r start start' t → ∀ steps e,
        SameOutcome (r.after start start' s t) s t (evaluate steps e start s)
          (evaluate steps e start' t)) ∧
    (∀ steps source (s : State) sink,
      SameOutcome s.shift s (.initial sink) (runSource steps source s)
        (runSource steps source (.initial sink)) ∧
      ∀ o s', runSource steps source s = some (o, s') →
        ∀ id < s.heap.size, s'.heap.get? id = s.heap.get? id) := by
  refine ⟨fun σ hσ => hσ.isSound, fun n e s start id hid hun => ?_,
    fun r start start' s t hs ht h steps e => evaluate_same hs ht h steps e,
    fun steps source s sink => ⟨runSource_same steps source s sink, fun o s' h id hid => ?_⟩⟩
  · exact get?_run_of_not_reaches n e hid hun
  · exact get?_of_runSource h hid

/-- In one state there is only the scope of a program. In the other one it comes behind that of another
program, and the array in it has another mark. -/
theorem unreachable_scopes_irrelevant_behind_other_program :
    ∃ (s t : State) (r : Renaming), s.IsSound ∧ t.IsSound ∧ s.AgreeFrom r 1 3 t ∧
      s.heap.lookup? 1 "a" = some (.array 0 [.text "x"]) ∧
      t.heap.lookup? 3 "a" = some (.array 1 [.text "x"]) ∧
      SameOutcome (r.after 1 3 s t) s t (evaluate 20 (.apply (.word "print") [.word "a"]) 1 s)
        (evaluate 20 (.apply (.word "print") [.word "a"]) 3 t) := by
  obtain ⟨hsound, -, hsame, -⟩ := unreachable_scopes_irrelevant
  have hitems : ∀ v ∈ [Value.text "x"], v ∈ [Value.text "x"] := fun _ hv => hv
  have hitems' : ∀ v ∈ [Value.text "x"], v ∈ [.array 0 [.text "x"], Value.text "x"] :=
    fun _ hv => .tail _ hv
  have hfirst (sink : Sink) := (((((Session.Reachable.start sink).step .global).step
    (.child (.head _))).step (.plain (v := .text "x") trivial)).step (.array hitems))
  have hs := hsound _ ((hfirst (.buffer "")).step (.define "a" (.head _) (.head _)))
  have ht := hsound _ ((((((hfirst (.buffer "y\n")).step (.define "b" (.head _) (.head _))).step
    .global).step (.child (.head _))).step (.array hitems')).step (.define "a" (.head _) (.head _)))
  have hrenaming : ∃ r : Renaming, (∀ a b, r.scope a b ↔ b = a + 2 ∧ a ≤ 1) ∧ r.mark 0 1 := by
    refine ⟨⟨fun a b => b = a + 2 ∧ a ≤ 1, fun x y => y = x + 1, fun h h' => ?_, fun h h' => ?_⟩,
      fun _ _ => Iff.rfl, rfl⟩
    · rw [h.1, h'.1, Nat.add_right_cancel_iff]
    · rw [h, h', Nat.add_right_cancel_iff]
  obtain ⟨r, hscope, hmark⟩ := hrenaming
  refine ⟨_, _, r, hs, ht, ?agree, by cbv, by cbv, hsame r 1 3 _ _ hs ht ?agree 20 _⟩
  refine ⟨(hscope 1 3).mpr ⟨rfl, Nat.le_refl 1⟩, fun a b _ _ hab => ?_⟩
  obtain ⟨rfl, ha⟩ := (hscope a b).mp hab
  rcases Nat.le_one_iff_eq_zero_or_eq_one.mp ha with rfl | rfl
  · exact ⟨_, _, rfl, rfl, .global fun _ hv => hv.like, .none⟩
  · have hvalue (left right : Sink) :
        (Value.array 0 [.text "x"]).Alike (r.everywhere left right) (.array 1 [.text "x"]) :=
      Value.like_array.mpr ⟨hmark, .cons (.text "x") .nil⟩
    have hparent : r.scope 0 2 := (hscope 0 2).mpr ⟨rfl, Nat.zero_le 1⟩
    exact ⟨_, _, rfl, rfl, Bindings.Like.empty.insert "a" (hvalue _ _), .some hparent⟩

end Program

end Egg
