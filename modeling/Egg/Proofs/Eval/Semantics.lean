import Egg.Eval.Machine
import Egg.Proofs.Scope.Resolution

/-!
# The meaning of expressions

The rules of the language, as relations between an expression with the scope and the state in which
its evaluation begins, and the value or error with which it ends and the state that it leaves.

The rules know no machine, no stack and no number of steps: an evaluation that does not end simply
has no derivation. What a special form looks like is written out in each rule, and names are found by
following the links between scopes.
-/

namespace Egg

/-- What an evaluation comes to: a value, or the error that ends it. -/
abbrev Result := Except EvalError Value

/-- An operator that is none of the six special words. -/
def Expr.IsOrdinary (f : Expr) : Prop := ∀ form : SpecialForm, f ≠ .word form.name

/-- Arguments that a special form does not accept, and what is wrong with them. -/
inductive Misshapen : SpecialForm → List Expr → Misuse → Prop where
  | choice {args : List Expr} (h : args.length ≠ 3) : Misshapen .choice args (.argumentCount 3)
  | loop {args : List Expr} (h : args.length ≠ 2) : Misshapen .loop args (.argumentCount 2)
  /-- A definition and an assignment have two parts. -/
  | binding {form : SpecialForm} {args : List Expr} (hf : form = .define ∨ form = .assign)
      (h : args.length ≠ 2) : Misshapen form args (.argumentCount 2)
  /-- The first part of a definition or an assignment is a word. -/
  | target {form : SpecialForm} {t e : Expr} (hf : form = .define ∨ form = .assign)
      (h : ∀ name, t ≠ .word name) : Misshapen form [t, e] .targetNotWord
  | body : Misshapen .function [] .missingBody
  /-- The parameters of a function, before its body, are words. -/
  | parameter {params : List Expr} {p body : Expr} (hp : p ∈ params) (h : ∀ name, p ≠ .word name) :
      Misshapen .function (params ++ [body]) .parameterNotWord

/-- The value that a native function of two numbers has for `m` and `n`. -/
inductive Computes : Builtin → (m n : Number) → Value → Prop where
  | add {m n : Number} : Computes .add m n (.number (m + n))
  | sub {m n : Number} : Computes .sub m n (.number (m - n))
  | mul {m n : Number} : Computes .mul m n (.number (m * n))
  | div {m n : Number} : Computes .div m n (.number (m / n))
  | lt {m n : Number} : Computes .lt m n (.bool (m.less n))
  | gt {m n : Number} : Computes .gt m n (.bool (n.less m))

/-- The application of a native function to arguments. -/
inductive Native : Builtin → List Value → State → Result → State → Prop where
  /-- A function of numbers is applied to two of them. -/
  | numbers {b : Builtin} {m n : Number} {v : Value} {s : State} (h : Computes b m n v) :
      Native b [.number m, .number n] s (.ok v) s
  /-- The first operand is not a number, whatever the second one is. -/
  | firstOperand {b : Builtin} {x y : Value} {s : State}
      (hb : b ∈ [.add, .sub, .mul, .div, .lt, .gt]) (hx : ∀ n, x ≠ .number n) :
      Native b [x, y] s (.error (.typeMismatch b .number x.describe)) s
  /-- The second operand is not a number. -/
  | secondOperand {b : Builtin} {m : Number} {y : Value} {s : State}
      (hb : b ∈ [.add, .sub, .mul, .div, .lt, .gt]) (hy : ∀ n, y ≠ .number n) :
      Native b [.number m, y] s (.error (.typeMismatch b .number y.describe)) s
  | eq {x y : Value} {s : State} : Native .eq [x, y] s (.ok (.bool (x.strictEq y))) s
  /-- A value is printed, and is the result. -/
  | print {v : Value} {s : State} : Native .print [v] s (.ok v) (s.printLine v.display)
  /-- A new array is made, which bears a mark of its own. -/
  | array {items : List Value} {s : State} :
      Native .array items s (.ok (.array s.nextTag items)) { s with nextTag := s.nextTag + 1 }
  /-- The items of an array are counted. -/
  | length {tag : Tag} {items : List Value} {s : State} :
      Native .length [.array tag items] s (.ok (.number (.ofNat items.length))) s
  /-- The items of what is not an array cannot be counted. -/
  | lengthOperand {v : Value} {s : State} (h : ∀ tag items, v ≠ .array tag items) :
      Native .length [v] s (.error (.typeMismatch .length .array v.describe)) s
  /-- The item with as many items before it as the index says. -/
  | element {tag : Tag} {items : List Value} {n : Number} {k : Nat} {v : Value} {s : State}
      (hn : n.toNat? = some k) (hv : items[k]? = some v) :
      Native .element [.array tag items, .number n] s (.ok v) s
  /-- The index is not that of an item. -/
  | elementBounds {tag : Tag} {items : List Value} {n : Number} {s : State}
      (hn : ∀ k, n.toNat? = some k → items.length ≤ k) :
      Native .element [.array tag items, .number n] s
        (.error (.indexOutOfBounds (String.ofList n.display) items.length)) s
  /-- What is not a number is no index. -/
  | elementIndex {tag : Tag} {items : List Value} {i : Value} {s : State} (hi : ∀ n, i ≠ .number n) :
      Native .element [.array tag items, i] s (.error (.typeMismatch .element .number i.describe)) s
  /-- What is not an array has no items, whatever the index is. -/
  | elementOperand {v i : Value} {s : State} (h : ∀ tag items, v ≠ .array tag items) :
      Native .element [v, i] s (.error (.typeMismatch .element .array v.describe)) s
  | arity {b : Builtin} {args : List Value} {n : Nat} {s : State} (hb : b.arity = .exact n)
      (hn : args.length ≠ n) :
      Native b args s (.error (.arityMismatch (Value.native b).describe n args.length)) s

mutual

/-- `Evaluates e scope s r s'`: the evaluation of `e` in `scope`, begun in the state `s`, ends with
`r` in the state `s'`. -/
inductive Evaluates : Expr → ScopeId → State → Result → State → Prop where
  | number {n : Number} {scope : ScopeId} {s : State} :
      Evaluates (.number n) scope s (.ok (.number n)) s
  | text {t : String} {scope : ScopeId} {s : State} : Evaluates (.text t) scope s (.ok (.text t)) s
  /-- A word stands for its nearest binding. -/
  | word {name : Name} {scope owner : ScopeId} {v : Value} {s : State}
      (h : s.heap.Resolves name scope owner v) : Evaluates (.word name) scope s (.ok v) s
  /-- A word without a binding. -/
  | undefined {name : Name} {scope : ScopeId} {s : State} (h : s.heap.Unbound name scope) :
      Evaluates (.word name) scope s (.error (.undefinedVariable name)) s
  /-- A special form of the wrong shape; none of its parts is evaluated. -/
  | misshapen {form : SpecialForm} {args : List Expr} {misuse : Misuse} {scope : ScopeId} {s : State}
      (h : Misshapen form args misuse) :
      Evaluates (.apply (.word form.name) args) scope s (.error (.badSpecialForm form misuse)) s
  /-- `if`, where the condition is anything but `false`. -/
  | choiceYes {condition yes no : Expr} {scope : ScopeId} {v : Value} {r : Result} {s s₁ s₂ : State}
      (hc : Evaluates condition scope s (.ok v) s₁) (hv : v ≠ .bool false)
      (h : Evaluates yes scope s₁ r s₂) :
      Evaluates (.apply (.word "if") [condition, yes, no]) scope s r s₂
  /-- `if`, where the condition is `false`. -/
  | choiceNo {condition yes no : Expr} {scope : ScopeId} {r : Result} {s s₁ s₂ : State}
      (hc : Evaluates condition scope s (.ok (.bool false)) s₁) (h : Evaluates no scope s₁ r s₂) :
      Evaluates (.apply (.word "if") [condition, yes, no]) scope s r s₂
  | choiceError {condition yes no : Expr} {scope : ScopeId} {x : EvalError} {s s₁ : State}
      (hc : Evaluates condition scope s (.error x) s₁) :
      Evaluates (.apply (.word "if") [condition, yes, no]) scope s (.error x) s₁
  /-- `while`, where the condition is `false`. -/
  | loopDone {condition body : Expr} {scope : ScopeId} {s s₁ : State}
      (hc : Evaluates condition scope s (.ok (.bool false)) s₁) :
      Evaluates (.apply (.word "while") [condition, body]) scope s (.ok (.bool false)) s₁
  /-- `while`, where the condition is anything but `false`: the body, and the loop once more. -/
  | loopNext {condition body : Expr} {scope : ScopeId} {v w : Value} {r : Result}
      {s s₁ s₂ s₃ : State} (hc : Evaluates condition scope s (.ok v) s₁) (hv : v ≠ .bool false)
      (hb : Evaluates body scope s₁ (.ok w) s₂)
      (h : Evaluates (.apply (.word "while") [condition, body]) scope s₂ r s₃) :
      Evaluates (.apply (.word "while") [condition, body]) scope s r s₃
  | loopConditionError {condition body : Expr} {scope : ScopeId} {x : EvalError} {s s₁ : State}
      (hc : Evaluates condition scope s (.error x) s₁) :
      Evaluates (.apply (.word "while") [condition, body]) scope s (.error x) s₁
  | loopBodyError {condition body : Expr} {scope : ScopeId} {v : Value} {x : EvalError}
      {s s₁ s₂ : State} (hc : Evaluates condition scope s (.ok v) s₁) (hv : v ≠ .bool false)
      (hb : Evaluates body scope s₁ (.error x) s₂) :
      Evaluates (.apply (.word "while") [condition, body]) scope s (.error x) s₂
  /-- `do` of nothing. -/
  | sequenceNil {scope : ScopeId} {s : State} :
      Evaluates (.apply (.word "do") []) scope s (.ok (.bool false)) s
  /-- `do` ends as its last part does. -/
  | sequenceLast {e : Expr} {scope : ScopeId} {r : Result} {s s₁ : State}
      (h : Evaluates e scope s r s₁) : Evaluates (.apply (.word "do") [e]) scope s r s₁
  /-- `do` evaluates its first part, and then the others. -/
  | sequenceNext {e e' : Expr} {rest : List Expr} {scope : ScopeId} {v : Value} {r : Result}
      {s s₁ s₂ : State} (he : Evaluates e scope s (.ok v) s₁)
      (h : Evaluates (.apply (.word "do") (e' :: rest)) scope s₁ r s₂) :
      Evaluates (.apply (.word "do") (e :: e' :: rest)) scope s r s₂
  /-- `do`, where a part before the last one fails. -/
  | sequenceError {e e' : Expr} {rest : List Expr} {scope : ScopeId} {x : EvalError} {s s₁ : State}
      (he : Evaluates e scope s (.error x) s₁) :
      Evaluates (.apply (.word "do") (e :: e' :: rest)) scope s (.error x) s₁
  /-- `define` binds the name in the current scope. -/
  | define {name : Name} {e : Expr} {scope : ScopeId} {v : Value} {s s₁ : State}
      (h : Evaluates e scope s (.ok v) s₁) :
      Evaluates (.apply (.word "define") [.word name, e]) scope s (.ok v) (s₁.define scope name v)
  | defineError {name : Name} {e : Expr} {scope : ScopeId} {x : EvalError} {s s₁ : State}
      (h : Evaluates e scope s (.error x) s₁) :
      Evaluates (.apply (.word "define") [.word name, e]) scope s (.error x) s₁
  /-- `set` changes the binding that is the nearest one after the value has been evaluated. -/
  | assign {name : Name} {e : Expr} {scope owner : ScopeId} {v old : Value} {s s₁ : State}
      (h : Evaluates e scope s (.ok v) s₁) (ho : s₁.heap.Resolves name scope owner old) :
      Evaluates (.apply (.word "set") [.word name, e]) scope s (.ok v) (s₁.define owner name v)
  /-- `set` of a name without a binding. -/
  | assignUnknown {name : Name} {e : Expr} {scope : ScopeId} {v : Value} {s s₁ : State}
      (h : Evaluates e scope s (.ok v) s₁) (hu : s₁.heap.Unbound name scope) :
      Evaluates (.apply (.word "set") [.word name, e]) scope s (.error (.unknownVariable name)) s₁
  | assignError {name : Name} {e : Expr} {scope : ScopeId} {x : EvalError} {s s₁ : State}
      (h : Evaluates e scope s (.error x) s₁) :
      Evaluates (.apply (.word "set") [.word name, e]) scope s (.error x) s₁
  /-- `fun` makes a new function, which bears a mark of its own and remembers the current scope. -/
  | function {params : List Name} {body : Expr} {scope : ScopeId} {s : State} :
      Evaluates (.apply (.word "fun") (params.map .word ++ [body])) scope s
        (.ok (.function s.nextTag ⟨params, body, scope⟩)) { s with nextTag := s.nextTag + 1 }
  /-- A call: the operator, which must be a function, then the arguments, then the application. -/
  | call {f : Expr} {args : List Expr} {scope : ScopeId} {callee : Value} {vs : List Value}
      {r : Result} {s s₁ s₂ s₃ : State} (hf : f.IsOrdinary)
      (ho : Evaluates f scope s (.ok callee) s₁) (hc : callee.isCallable)
      (ha : EvaluatesAll args scope s₁ (.ok vs) s₂) (h : Applies callee vs s₂ r s₃) :
      Evaluates (.apply f args) scope s r s₃
  | callOperatorError {f : Expr} {args : List Expr} {scope : ScopeId} {x : EvalError} {s s₁ : State}
      (hf : f.IsOrdinary) (ho : Evaluates f scope s (.error x) s₁) :
      Evaluates (.apply f args) scope s (.error x) s₁
  /-- A call whose operator is no function; no argument is evaluated. -/
  | callNotCallable {f : Expr} {args : List Expr} {scope : ScopeId} {v : Value} {s s₁ : State}
      (hf : f.IsOrdinary) (ho : Evaluates f scope s (.ok v) s₁) (hv : v.isCallable = false) :
      Evaluates (.apply f args) scope s (.error (.notCallable v.describe)) s₁
  | callArgumentError {f : Expr} {args : List Expr} {scope : ScopeId} {callee : Value}
      {x : EvalError} {s s₁ s₂ : State} (hf : f.IsOrdinary)
      (ho : Evaluates f scope s (.ok callee) s₁) (hc : callee.isCallable)
      (ha : EvaluatesAll args scope s₁ (.error x) s₂) : Evaluates (.apply f args) scope s (.error x) s₂

/-- The evaluation of expressions from left to right, up to the first one that fails. -/
inductive EvaluatesAll :
    List Expr → ScopeId → State → Except EvalError (List Value) → State → Prop where
  | nil {scope : ScopeId} {s : State} : EvaluatesAll [] scope s (.ok []) s
  | cons {e : Expr} {es : List Expr} {scope : ScopeId} {v : Value} {vs : List Value}
      {s s₁ s₂ : State} (he : Evaluates e scope s (.ok v) s₁)
      (h : EvaluatesAll es scope s₁ (.ok vs) s₂) : EvaluatesAll (e :: es) scope s (.ok (v :: vs)) s₂
  | head {e : Expr} {es : List Expr} {scope : ScopeId} {x : EvalError} {s s₁ : State}
      (he : Evaluates e scope s (.error x) s₁) : EvaluatesAll (e :: es) scope s (.error x) s₁
  | tail {e : Expr} {es : List Expr} {scope : ScopeId} {v : Value} {x : EvalError} {s s₁ s₂ : State}
      (he : Evaluates e scope s (.ok v) s₁) (h : EvaluatesAll es scope s₁ (.error x) s₂) :
      EvaluatesAll (e :: es) scope s (.error x) s₂

/-- The application of a value to evaluated arguments. -/
inductive Applies : Value → List Value → State → Result → State → Prop where
  /-- The body is evaluated in a new scope inside the one where the function was made. -/
  | function {tag : Tag} {c : Closure} {args : List Value} {r : Result} {s s₁ : State}
      (hn : c.params.length = args.length)
      (h : Evaluates c.body s.heap.size
        { s with heap := s.heap.push (.ofList (c.params.zip args)) (some c.scope) } r s₁) :
      Applies (.function tag c) args s r s₁
  /-- The number of arguments is not that of the parameters. -/
  | functionArity {tag : Tag} {c : Closure} {args : List Value} {s : State}
      (hn : c.params.length ≠ args.length) :
      Applies (.function tag c) args s
        (.error (.arityMismatch (Value.function tag c).describe c.params.length args.length)) s
  | native {b : Builtin} {args : List Value} {r : Result} {s s₁ : State}
      (h : Native b args s r s₁) : Applies (.native b) args s r s₁
  /-- What is not a function cannot be applied. -/
  | notCallable {v : Value} {args : List Value} {s : State} (hv : v.isCallable = false) :
      Applies v args s (.error (.notCallable v.describe)) s

end

end Egg
