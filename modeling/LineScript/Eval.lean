import LineScript.Machine

/-!
# Evaluation

An expression is evaluated in a scope. Operands, elements and arguments are evaluated from left to
right, all of them, before anything is done with them.

  * `evalOver` says what each kind of expression does, given an evaluator for what is inside it.
  * `eval n` closes the circle; `n` bounds the depth of nested evaluations and the number of
    iterations of each loop.
  * `callFunction` and `callBuiltin` carry out calls.

**Scopes.** A call creates a scope inside the one that the function closes over, not inside the
caller's. Loops and conditionals create none: a loop variable is bound in the current scope.

**Faults.** An operator that is not defined for its operands fails at the place of the operator's
node, a condition and a bound at their own place, a call at the place of the call.
-/

namespace LineScript

/-- A way to evaluate expressions in scopes. -/
abbrev Evaluator := ScopeId → Expr → Eval Value

namespace Eval

/-! ### Lists, conditions, bodies -/

/-- Evaluates expressions from left to right. -/
def all (ev : Evaluator) (scope : ScopeId) : List Expr → Eval (List Value)
  | [] => pure []
  | e :: es => do
    let v ← ev scope e
    let vs ← all ev scope es
    pure (v :: vs)

/-- Evaluates an expression whose truth is asked for. -/
def condition (ev : Evaluator) (scope : ScopeId) (e : Expr) : Eval Bool := do
  let v ← ev scope e
  lift scope e.position v.condition

/-- Evaluates a body. -/
def body (ev : Evaluator) (scope : ScopeId) (b : Body) : Eval Value := do
  let v ← ev scope b.expr
  pure (b.yield v)

/-- The rest of a conditional, after its first case did not hold. -/
def chain (ev : Evaluator) (scope : ScopeId) : Chain → Eval Value
  | .done => pure .null
  | .otherwise b => body ev scope b
  | .elif c b rest => do
    if ← condition ev scope c then body ev scope b else chain ev scope rest

/-! ### Variables -/

/-- The value of a variable. -/
def variable_ (scope : ScopeId) (name : String) (p : Position) : Eval Value := do
  match ← Run.look (·.lookup scope name) with
  | some v => pure v
  | none => raise scope p (.undefinedVariable name)

/-! ### Loops -/

/-- A bound of a counted loop, which must be a number. -/
def bound (ev : Evaluator) (scope : ScopeId) (e : Expr) (operation : String) : Eval Float := do
  let v ← ev scope e
  lift scope e.position (v.toNumber operation)

/-- Whether a counted loop goes on at `i`: upwards below the end, downwards above it. A step that is
no number counts downwards. -/
def inRange (stop step i : Float) : Bool :=
  if step ≥ 0 then i < stop else i > stop

/-- The iterations of a counted loop from `i` on; `done` holds the values so far, the latest first.
The counter is the loop's own: what the body does to the variable does not change it. -/
def countFrom (ev : Evaluator) (scope : ScopeId) (var : String) (b : Body) (stop step : Float) :
    Nat → Float → List Value → Eval (List Value)
  | 0, _, _ => Run.exhausted
  | n + 1, i, done =>
    if inRange stop step i then do
      bindName scope var (.number i)
      let v ← body ev scope b
      countFrom ev scope var b stop step n (i + step) (v :: done)
    else pure done.reverse

/-- `FOR var = start TO stop STEP step THEN body`. The bounds are evaluated once, before the first
iteration. -/
def forTo (ev : Evaluator) (n : Nat) (scope : ScopeId) (var : String) (start stop : Expr)
    (step : Option Expr) (b : Body) (p : Position) : Eval Value := do
  let first ← bound ev scope start "FOR start"
  let last ← bound ev scope stop "FOR end"
  let by_ ← match step with
    | some e => bound ev scope e "FOR step"
    | none => pure 1
  let values ← countFrom ev scope var b last by_ n first []
  record (.forRan var p values.length)
  pure (.list values)

/-- The iterations of a conditional loop; `done` holds the values so far, the latest first. -/
def repeatWhile (ev : Evaluator) (scope : ScopeId) (c : Expr) (b : Body) :
    Nat → List Value → Eval (List Value)
  | 0, _ => Run.exhausted
  | n + 1, done => do
    if ← condition ev scope c then
      let v ← body ev scope b
      repeatWhile ev scope c b n (v :: done)
    else pure done.reverse

/-- `WHILE condition THEN body`. -/
def whileDo (ev : Evaluator) (n : Nat) (scope : ScopeId) (c : Expr) (b : Body) : Eval Value := do
  let values ← repeatWhile ev scope c b n []
  record (.whileRan values.length)
  pure (.list values)

/-! ### Functions -/

/-- Defines a function: it closes over the current scope, and is bound there if it has a name. -/
def define (scope : ScopeId) (name : Option String) (params : List String) (b : Body) :
    Eval Value := do
  let f := Value.function ⟨name, params, b, scope⟩
  match name with
  | some name =>
    bindName scope name f
    pure f
  | none => pure f

/-- Calls a function. A wrong number of arguments is the caller's fault; all else happens in a new
scope. -/
def callFunction (ev : Evaluator) (caller : ScopeId) (f : Closure) (arguments : List Value)
    (p : Position) : Eval Value := do
  lift caller p (checkArity f.displayName f.params.length arguments.length)
  record (.called f.displayName arguments.length)
  let scope ← enter f.scope f.displayName p (f.params.zip arguments)
  body ev scope f.body

/-- Calls a built-in function. -/
def callBuiltin (caller : ScopeId) (name : String) (arguments : List Value) (p : Position) :
    Eval Value := do
  match Builtin.ofName? name with
  | none => raise caller p (.unknownBuiltIn name)
  | some b =>
    lift caller p (checkArity b.name b.arity arguments.length)
    let (result, events) ← Run.look fun m => b.apply m.clock arguments
    Run.modify fun m => events.foldl Machine.record m
    lift caller p result

/-- Calls a value. -/
def call (ev : Evaluator) (scope : ScopeId) (callee : Value) (arguments : List Value)
    (p : Position) : Eval Value :=
  match callee with
  | .function f => callFunction ev scope f arguments p
  | .builtIn name => callBuiltin scope name arguments p
  | other => raise scope p (.notCallable other.kind)

end Eval

/-! ### Expressions -/

/-- Evaluates an expression, given an evaluator for what is inside it. -/
def evalOver (ev : Evaluator) (n : Nat) (scope : ScopeId) : Expr → Eval Value
  | .number value _ => pure (.number value)
  | .text value _ => pure (.text value)
  | .list elements _ => do
    let values ← Eval.all ev scope elements
    pure (.list values)
  | .name name p => Eval.variable_ scope name p
  | .assign name value _ => do
    let v ← ev scope value
    Eval.bindName scope name v
    pure v
  | .binary op left right p => do
    let l ← ev scope left
    let r ← ev scope right
    Eval.lift scope p (l.applyBinary op r)
  | .unary op operand p => do
    let v ← ev scope operand
    Eval.lift scope p (v.applyUnary op)
  | .ifThen c b rest _ => Eval.chain ev scope (.elif c b rest)
  | .forTo var start stop step b p => Eval.forTo ev n scope var start stop step b p
  | .whileDo c b _ => Eval.whileDo ev n scope c b
  | .function name params b _ => Eval.define scope name params b
  | .call callee arguments p => do
    let f ← ev scope callee
    let vs ← Eval.all ev scope arguments
    Eval.call ev scope f vs p

/-- Evaluates an expression in a scope, with at most `n` nested evaluations and at most `n`
iterations of any loop. -/
def eval : Nat → Evaluator
  | 0, _, _ => Run.exhausted
  | n + 1, scope, e => evalOver (eval n) n scope e

end LineScript
