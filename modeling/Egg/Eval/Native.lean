import Egg.Eval.Error
import Egg.Eval.State
import Egg.Number.Rounding

/-!
# What native functions do

A native function is applied to evaluated arguments. It checks their number first, and then their
kinds from left to right.
-/

namespace Egg

namespace Builtin

/-- The number that an argument must be. -/
def numberArg (b : Builtin) (v : Value) : Except EvalError Number :=
  match v.asNumber? with
  | some n => .ok n
  | none => .error (.typeMismatch b .number v.describe)

/-- A function of two numbers. -/
def onNumbers (b : Builtin) (f : Number → Number → Value) (x y : Value) : Except EvalError Value :=
  match b.numberArg x with
  | .error e => .error e
  | .ok m =>
    match b.numberArg y with
    | .error e => .error e
    | .ok n => .ok (f m n)

/-- The number of items of an array. -/
def lengthOf : Value → Except EvalError Value
  | .array _ items => .ok (.number (.ofNat items.length))
  | v => .error (.typeMismatch length .array v.describe)

/-- The item of an array at an index. The index must be equal to the number of items before it. -/
def elementAt (array index : Value) : Except EvalError Value :=
  match array with
  | .array _ items =>
    match element.numberArg index with
    | .error e => .error e
    | .ok n =>
      match n.toNat?.bind (items[·]?) with
      | some v => .ok v
      | none => .error (.indexOutOfBounds (String.ofList n.display) items.length)
  | v => .error (.typeMismatch element .array v.describe)

/-- Applies a native function to arguments. -/
def call (b : Builtin) (args : List Value) (s : State) : Except EvalError Value × State :=
  match b, args with
  | add, [x, y] => (add.onNumbers (fun m n => .number (m + n)) x y, s)
  | sub, [x, y] => (sub.onNumbers (fun m n => .number (m - n)) x y, s)
  | mul, [x, y] => (mul.onNumbers (fun m n => .number (m * n)) x y, s)
  | div, [x, y] => (div.onNumbers (fun m n => .number (m / n)) x y, s)
  | lt, [x, y] => (lt.onNumbers (fun m n => .bool (m.less n)) x y, s)
  | gt, [x, y] => (gt.onNumbers (fun m n => .bool (n.less m)) x y, s)
  | eq, [x, y] => (.ok (.bool (x.strictEq y)), s)
  | print, [v] => (.ok v, s.printLine v.display)
  | array, items =>
    let (v, s) := s.newArray items
    (.ok v, s)
  | length, [v] => (lengthOf v, s)
  | element, [v, index] => (elementAt v index, s)
  | b, args =>
    (.error (.arityMismatch (Value.native b).describe b.arity.least args.length), s)

end Builtin

end Egg
