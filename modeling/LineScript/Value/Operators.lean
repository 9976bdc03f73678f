import LineScript.Fault

/-!
# Operators on values

What the operators of the language do, each by the kinds of its operands.

  * Numbers: the arithmetic of doubles. Division by zero is an error, not an infinity.
  * Strings: `+` joins them.
  * Lists: `+` appends an element, `-` removes the one at an index, `/` gives the one at an index.
  * Comparisons take two numbers or two strings, the logical operators two numbers or two strings by
    their truth.

An operation that is not defined for its operands ends with a cause, not with a fault: the place and
the scope are known only to the evaluator.
-/

namespace LineScript.Value

/-! ### Refusals -/

/-- The operator is not defined for these operands. -/
def refuse (op : BinaryOperator) (left right : Value) : Cause :=
  .unsupportedOperands op.symbol.spelling left.kind right.kind

/-- The operator is not defined for this operand. -/
def refuseUnary (op : UnaryOperator) (operand : Value) : Cause :=
  .unsupportedOperand op.symbol.spelling (some operand.kind)

/-! ### Conditions and numbers -/

/-- The truth of a value that is used as a condition. -/
def condition (v : Value) : Except Cause Bool :=
  match v.truth? with
  | some b => .ok b
  | none => .error (.unsupportedOperand "condition" (some v.kind))

/-- The number that a value is, for an operation that needs one. -/
def toNumber (v : Value) (operation : String) : Except Cause Float :=
  match v with
  | number x => .ok x
  | _ => .error (.unsupportedOperand operation (some v.kind))

/-! ### Lists -/

/-- The list with an element at its end. -/
def append (elements : List Value) (item : Value) : Value :=
  list (elements ++ [item])

/-- The list without the element at an index. -/
def removeAt (elements : List Value) (index : Float) : Except Cause Value :=
  match Number.index? index elements.length with
  | some i => .ok (list (elements.eraseIdx i))
  | none => .error (.indexOutOfBounds index elements.length)

/-- The element at an index. -/
def elementAt (elements : List Value) (index : Float) : Except Cause Value :=
  match (Number.index? index elements.length).bind (elements[·]?) with
  | some v => .ok v
  | none => .error (.indexOutOfBounds index elements.length)

/-! ### Arithmetic -/

/-- `+`, `-`, `*`, `/` and `^` of two numbers. -/
def arithmetic (op : BinaryOperator) (left right : Value) : Except Cause Value :=
  match left, right with
  | number a, number b =>
    match op with
    | .add => .ok (number (a + b))
    | .sub => .ok (number (a - b))
    | .mul => .ok (number (a * b))
    | .div => if b == 0 then .error .divisionByZero else .ok (number (a / b))
    | .pow => .ok (number (Float.pow a b))
    | _ => .error (refuse op left right)
  | _, _ => .error (refuse op left right)

/-! ### Comparison -/

/-- Order of two numbers; a NaN has no order with anything. -/
def orderNumbers (a b : Float) : Option Ordering :=
  if a < b then some .lt
  else if a == b then some .eq
  else if a > b then some .gt
  else none

/-- Order of two strings, character by character. -/
def orderStrings (a b : String) : Ordering :=
  if a < b then .lt else if a = b then .eq else .gt

/-- Whether a comparison holds when its operands stand in the given order. Without an order only
`!=` holds; an operator that is no comparison has no answer. -/
def comparisonHolds (op : BinaryOperator) (order : Option Ordering) : Option Bool :=
  match op, order with
  | .notEqual, none => some true
  | .equal, none | .less, none | .greater, none | .lessEqual, none | .greaterEqual, none =>
    some false
  | .equal, some o => some o.isEq
  | .notEqual, some o => some o.isNe
  | .less, some o => some o.isLT
  | .greater, some o => some o.isGT
  | .lessEqual, some o => some o.isLE
  | .greaterEqual, some o => some o.isGE
  | _, _ => none

/-- The answer of a comparison, as a number. -/
def compareBy (op : BinaryOperator) (left right : Value) (order : Option Ordering) :
    Except Cause Value :=
  match comparisonHolds op order with
  | some b => .ok (ofBool b)
  | none => .error (refuse op left right)

/-- The six comparisons, of two numbers or two strings. -/
def comparison (op : BinaryOperator) (left right : Value) : Except Cause Value :=
  match left, right with
  | number a, number b => compareBy op left right (orderNumbers a b)
  | text a, text b => compareBy op left right (some (orderStrings a b))
  | _, _ => .error (refuse op left right)

/-! ### Logic -/

/-- `&&` and `||` of two values of the same kind that have a truth. Both operands have been
evaluated already. -/
def logic (op : BinaryOperator) (left right : Value) : Except Cause Value :=
  match left.truth?, right.truth? with
  | some a, some b =>
    if left.kind = right.kind then
      match op with
      | .and => .ok (ofBool (a && b))
      | .or => .ok (ofBool (a || b))
      | _ => .error (refuse op left right)
    else .error (refuse op left right)
  | _, _ => .error (refuse op left right)

/-! ### All operators -/

/-- The value of `left op right`. -/
def applyBinary (op : BinaryOperator) (left right : Value) : Except Cause Value :=
  match op with
  | .add =>
    match left, right with
    | list elements, item => .ok (append elements item)
    | text a, text b => .ok (text (a ++ b))
    | _, _ => arithmetic op left right
  | .sub =>
    match left, right with
    | list elements, number index => removeAt elements index
    | _, _ => arithmetic op left right
  | .div =>
    match left, right with
    | list elements, number index => elementAt elements index
    | _, _ => arithmetic op left right
  | .mul | .pow => arithmetic op left right
  | .equal | .notEqual | .less | .greater | .lessEqual | .greaterEqual => comparison op left right
  | .and | .or => logic op left right

/-- The value of `op operand`. -/
def applyUnary (op : UnaryOperator) (operand : Value) : Except Cause Value :=
  match op, operand with
  | .plus, number x => .ok (number x)
  | .negate, number x => .ok (number (-x))
  | .not, v =>
    match v.truth? with
    | some b => .ok (ofBool (!b))
    | none => .error (refuseUnary op v)
  | _, v => .error (refuseUnary op v)

end LineScript.Value
