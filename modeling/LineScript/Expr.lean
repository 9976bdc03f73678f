import LineScript.Token

/-!
# Expressions

Everything in a program is an expression with a value: literals, variables, operators, conditionals,
loops, function definitions and calls. A program is a list of them.

  * `Expr` is an expression; every node records the place in the source it was read from.
  * `Body` is what a conditional, loop or function carries out: one expression on the same line,
    or a block of statements.
  * `Chain` is what follows the first case of a conditional.
  * `Expr.same` compares two trees, places included. Numbers are compared as numbers, so a tree that
    holds a NaN differs from itself.
-/

namespace LineScript

/-! ### Operators -/

/-- Operators that stand between two operands. -/
inductive BinaryOperator
  | and | or
  | equal | notEqual | less | greater | lessEqual | greaterEqual
  | add | sub | mul | div | pow
  deriving DecidableEq

namespace BinaryOperator

/-- The symbol of an operator. -/
def symbol : BinaryOperator → Symbol
  | and => .andAnd
  | or => .orOr
  | equal => .equalEqual
  | notEqual => .bangEqual
  | less => .less
  | greater => .greater
  | lessEqual => .lessEqual
  | greaterEqual => .greaterEqual
  | add => .plus
  | sub => .minus
  | mul => .star
  | div => .slash
  | pow => .caret

/-- The operator that a symbol stands for between two operands. -/
def ofSymbol? : Symbol → Option BinaryOperator
  | .andAnd => some and
  | .orOr => some or
  | .equalEqual => some equal
  | .bangEqual => some notEqual
  | .less => some less
  | .greater => some greater
  | .lessEqual => some lessEqual
  | .greaterEqual => some greaterEqual
  | .plus => some add
  | .minus => some sub
  | .star => some mul
  | .slash => some div
  | .caret => some pow
  | _ => none

theorem ofSymbol?_eq_some_iff {s : Symbol} {op : BinaryOperator} :
    ofSymbol? s = some op ↔ s = op.symbol := by
  cases s <;> cases op <;> decide

/-- The operator that a token stands for between two operands. -/
def ofToken? : Token → Option BinaryOperator
  | .symbol mark => ofSymbol? mark
  | _ => none

/-- `&&` and `||`. -/
def isLogical : BinaryOperator → Bool
  | and | or => true
  | _ => false

/-- The six comparisons. -/
def isComparison : BinaryOperator → Bool
  | equal | notEqual | less | greater | lessEqual | greaterEqual => true
  | _ => false

/-- `+` and `-`. -/
def isAdditive : BinaryOperator → Bool
  | add | sub => true
  | _ => false

/-- `*` and `/`. -/
def isMultiplicative : BinaryOperator → Bool
  | mul | div => true
  | _ => false

/-- `^`. -/
def isPower : BinaryOperator → Bool
  | pow => true
  | _ => false

end BinaryOperator

/-- Operators that stand before one operand. -/
inductive UnaryOperator
  | plus | negate | not
  deriving DecidableEq

/-- The symbol of an operator. -/
def UnaryOperator.symbol : UnaryOperator → Symbol
  | plus => .plus
  | negate => .minus
  | not => .bang

/-! ### Trees -/

mutual

/-- An expression. The position of each node is that of the first token it was read from, opening
parentheses left aside. -/
inductive Expr
  /-- A number. -/
  | number (value : Float) (position : Position)
  /-- A string. -/
  | text (value : String) (position : Position)
  /-- A list of expressions: a list literal, the statements of a block or a whole program. -/
  | list (elements : List Expr) (position : Position)
  /-- The value of a variable. -/
  | name (name : String) (position : Position)
  /-- `VAR name = value`. -/
  | assign (name : String) (value : Expr) (position : Position)
  /-- `left op right`. -/
  | binary (op : BinaryOperator) (left right : Expr) (position : Position)
  /-- `op operand`. -/
  | unary (op : UnaryOperator) (operand : Expr) (position : Position)
  /-- `IF condition THEN body`, and what follows. -/
  | ifThen (condition : Expr) (body : Body) (rest : Chain) (position : Position)
  /-- `FOR var = start TO stop STEP step THEN body`. -/
  | forTo (var : String) (start stop : Expr) (step : Option Expr) (body : Body)
      (position : Position)
  /-- `WHILE condition THEN body`. -/
  | whileDo (condition : Expr) (body : Body) (position : Position)
  /-- `FUNCTION name(params) => body`; the name may be missing. -/
  | function (name : Option String) (params : List String) (body : Body) (position : Position)
  /-- `callee(arguments)`. -/
  | call (callee : Expr) (arguments : List Expr) (position : Position)

/-- What a conditional, loop or function carries out. -/
inductive Body
  /-- One expression on the same line. -/
  | inline (expr : Expr)
  /-- Statements on lines of their own. -/
  | block (statements : Expr)

/-- What follows a case of a conditional. -/
inductive Chain
  /-- Nothing. -/
  | done
  /-- `ELSE body`. -/
  | otherwise (body : Body)
  /-- `ELIF condition THEN body`, and what follows. -/
  | elif (condition : Expr) (body : Body) (rest : Chain)

end

/-- The place a node was read from. -/
def Expr.position : Expr → Position
  | number _ p | text _ p | list _ p | name _ p | assign _ _ p | binary _ _ _ p | unary _ _ p
  | ifThen _ _ _ p | forTo _ _ _ _ _ p | whileDo _ _ p | function _ _ _ p | call _ _ p => p

namespace Body

/-- The expression of a body. -/
def expr : Body → Expr
  | inline e => e
  | block e => e

/-- Whether a body is a block. -/
def isBlock : Body → Bool
  | inline _ => false
  | block _ => true

end Body

/-! ### Comparison -/

mutual

/-- Whether two expressions are the same, node by node, with the same places. -/
def Expr.same : Expr → Expr → Bool
  | .number a p, .number b q => a == b && p == q
  | .text a p, .text b q => a == b && p == q
  | .list as p, .list bs q => Expr.sameAll as bs && p == q
  | .name a p, .name b q => a == b && p == q
  | .assign a v p, .assign b w q => a == b && v.same w && p == q
  | .binary o l r p, .binary o' l' r' q => o == o' && l.same l' && r.same r' && p == q
  | .unary o e p, .unary o' e' q => o == o' && e.same e' && p == q
  | .ifThen c b r p, .ifThen c' b' r' q => c.same c' && b.same b' && r.same r' && p == q
  | .forTo v s e t b p, .forTo v' s' e' t' b' q =>
    v == v' && s.same s' && e.same e' && Expr.sameOption t t' && b.same b' && p == q
  | .whileDo c b p, .whileDo c' b' q => c.same c' && b.same b' && p == q
  | .function n ps b p, .function n' ps' b' q => n == n' && ps == ps' && b.same b' && p == q
  | .call c as p, .call c' as' q => c.same c' && Expr.sameAll as as' && p == q
  | _, _ => false
termination_by structural e => e

/-- Whether two lists of expressions are the same, one by one. -/
def Expr.sameAll : List Expr → List Expr → Bool
  | [], [] => true
  | a :: as, b :: bs => a.same b && Expr.sameAll as bs
  | _, _ => false
termination_by structural e => e

/-- Whether two expressions that may be missing are the same. -/
def Expr.sameOption : Option Expr → Option Expr → Bool
  | none, none => true
  | some a, some b => a.same b
  | _, _ => false
termination_by structural e => e

/-- Whether two bodies are of the same layout with the same expression. -/
def Body.same : Body → Body → Bool
  | .inline a, .inline b => a.same b
  | .block a, .block b => a.same b
  | _, _ => false
termination_by structural e => e

/-- Whether two conditionals go on in the same way. -/
def Chain.same : Chain → Chain → Bool
  | .done, .done => true
  | .otherwise a, .otherwise b => a.same b
  | .elif c b r, .elif c' b' r' => c.same c' && b.same b' && r.same r'
  | _, _ => false
termination_by structural e => e

end

end LineScript
