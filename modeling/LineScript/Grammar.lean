import LineScript.Grammar.Rule

/-!
# The grammar

From the loosest to the tightest, an expression is an assignment or

  * a chain of `&&`, `||` over comparisons,
  * a comparison: `!` before a comparison, or a chain of comparison operators over sums,
  * a sum over products over signed factors,
  * a factor: a sign before a factor, or a power,
  * a power: a call and any number of `^` with a factor each,
  * a call: an atom, possibly followed by arguments,
  * an atom: a literal, a name, a parenthesised expression, a list, or one of the constructs `IF`,
    `FOR`, `WHILE`, `FUNCTION`.

Every chain groups to the left. Statements are separated by line breaks.

**Open recursion.** An expression contains expressions and statements. The rules below take the
rules for those as an argument of type `Nested`; only `expression` closes the circle. So a fact
about one rule can be proved from the facts about what is nested in it. The number `n` that rules
carry bounds the depth of nesting and the length of chains; it goes down only where a token has
been read.

**Giving up.** After the first statement of a list, each further one is an attempt: if it fails, the
list ends before it. Whoever reads on from there reports the failure (`Rule.failOr`).
-/

namespace LineScript

/-- The rules for what stands inside other expressions. -/
structure Nested where
  /-- One expression. -/
  expression : Rule Expr
  /-- The statements of a block. -/
  statements : Rule Expr

namespace Grammar

open Run Rule

/-! ### Operators -/

/-- Reads any number of accepted operators, each with an operand after it, and groups them to the
left onto `left`. -/
def chain (accepts : BinaryOperator → Bool) (operand : Rule Expr) : Nat → Expr → Rule Expr
  | 0, _ => exhausted
  | n + 1, left => do
    match (BinaryOperator.ofToken? (← look Cursor.peek)).filter accepts with
    | some op =>
      let _ ← advance
      let right ← operand
      chain accepts operand n (.binary op left right left.position)
    | none => pure left

/-- Reads an operand and the chain of accepted operators after it. -/
def leftAssociative (accepts : BinaryOperator → Bool) (operand : Rule Expr) (n : Nat) :
    Rule Expr := do
  let first ← operand
  chain accepts operand n first

/-! ### Bodies -/

/-- A line break and the statements after it. -/
def block (sub : Nested) : Rule Body := do
  let _ ← expect .newline Token.newline.describe
  let statements ← sub.statements
  pure (.block statements)

/-- The `END` of a block. -/
def blockEnd (construct : Keyword) : Rule Unit := do
  if ← seesKeyword .end_ then
    let _ ← advance
    pure ()
  else failOr fun c => .unclosed construct c.peek c.position

/-- An expression on the same line. -/
def inlineBody (sub : Nested) : Rule Body := do
  let e ← sub.expression
  pure (.inline e)

/-- An expression on the same line, or a block with its `END`. -/
def body (sub : Nested) (construct : Keyword) : Rule Body := do
  if ← sees .newline then
    let b ← block sub
    blockEnd construct
    pure b
  else inlineBody sub

/-! ### Constructs -/

/-- What follows a case that is not closed by `END`: a further case, the last branch, or nothing. -/
def afterCase (sub : Nested) (case : Rule (Expr × Body × Chain)) : Rule Chain := do
  if ← seesKeyword .elif then
    let (condition, body, rest) ← case
    pure (.elif condition body rest)
  else if ← seesKeyword .else_ then
    let _ ← advance
    let b ← body sub .else_
    pure (.otherwise b)
  else pure .done

/-- One case of a conditional and all that follows it. An `END` right after a block closes the whole
conditional. -/
def ifCase (sub : Nested) : Nat → Keyword → Rule (Expr × Body × Chain)
  | 0, _ => exhausted
  | n + 1, word => do
    let _ ← expectKeyword word
    let condition ← sub.expression
    let _ ← expectKeyword .then_
    if ← sees .newline then
      let b ← block sub
      if ← seesKeyword .end_ then
        let _ ← advance
        pure (condition, b, .done)
      else if (← seesKeyword .elif) || (← seesKeyword .else_) then
        let rest ← afterCase sub (ifCase sub n .elif)
        pure (condition, b, rest)
      else
        blockEnd .if_
        pure (condition, b, .done)
    else
      let b ← inlineBody sub
      let rest ← afterCase sub (ifCase sub n .elif)
      pure (condition, b, rest)

/-- `IF condition THEN body …`. -/
def conditional (sub : Nested) (n : Nat) : Rule Expr := do
  let p ← look Cursor.position
  let (condition, b, rest) ← ifCase sub n .if_
  pure (.ifThen condition b rest p)

/-- `STEP step`, which may be missing. -/
def step (sub : Nested) : Rule (Option Expr) := do
  if ← seesKeyword .step then
    let _ ← advance
    let e ← sub.expression
    pure (some e)
  else pure none

/-- `FOR var = start TO stop STEP step THEN body`. -/
def countedLoop (sub : Nested) : Rule Expr := do
  let p ← expectKeyword .for_
  let var ← expectIdentifier
  let _ ← expectSymbol .equals
  let start ← sub.expression
  let _ ← expectKeyword .to_
  let stop ← sub.expression
  let by_ ← step sub
  let _ ← expectKeyword .then_
  let b ← body sub .for_
  pure (.forTo var start stop by_ b p)

/-- `WHILE condition THEN body`. -/
def conditionalLoop (sub : Nested) : Rule Expr := do
  let p ← expectKeyword .while_
  let condition ← sub.expression
  let _ ← expectKeyword .then_
  let b ← body sub .while_
  pure (.whileDo condition b p)

/-- A name, which may be missing. -/
def optionalName : Rule (Option String) := do
  match ← look Cursor.peek with
  | .identifier name =>
    let _ ← advance
    pure (some name)
  | _ => pure none

/-- The body of a function: an arrow and an expression, or a block with its `END`. -/
def functionBody (sub : Nested) : Rule Body := do
  if ← sees (.symbol .arrow) then
    let _ ← advance
    inlineBody sub
  else if ← sees .newline then
    let b ← block sub
    blockEnd .function
    pure b
  else unexpected "'=>' or newline"

/-- `FUNCTION name(params) => body`. -/
def functionDefinition (sub : Nested) (n : Nat) : Rule Expr := do
  let p ← expectKeyword .function
  let name ← optionalName
  let _ ← expect (.symbol .lparen) (if name.isSome then "'('" else "identifier or '('")
  let params ← separated expectIdentifier .rparen n
  let b ← functionBody sub
  pure (.function name params b p)

/-! ### Atoms, calls, powers, factors -/

/-- An expression in parentheses, which leave no trace in the tree. -/
def grouping (sub : Nested) : Rule Expr := do
  let _ ← expectSymbol .lparen
  let e ← sub.expression
  let _ ← expectSymbol .rparen
  pure e

/-- `[a, b, …]`. -/
def listLiteral (sub : Nested) (n : Nat) : Rule Expr := do
  let p ← expectSymbol .lbracket
  let elements ← separated sub.expression .rbracket n
  pure (.list elements p)

/-- A number, if its text is one. -/
def numberLiteral (text : String) : Rule Expr := do
  match Number.read? text with
  | some value =>
    let read ← advance
    pure (.number value read.position)
  | none => unexpected "a valid number literal"

/-- What can stand at the beginning of an atom, in the words of error messages. -/
def atomStart : String :=
  "number, string, identifier, 'IF', 'FOR', 'WHILE', 'FUNCTION', '(' or '['"

/-- A literal, a name, a parenthesised expression, a list or a construct. -/
def atom (sub : Nested) (n : Nat) : Rule Expr := do
  match ← look Cursor.peek with
  | .int text => numberLiteral text
  | .float text => numberLiteral text
  | .str value =>
    let read ← advance
    pure (.text value read.position)
  | .identifier name =>
    let read ← advance
    pure (.name name read.position)
  | .symbol .lparen => grouping sub
  | .symbol .lbracket => listLiteral sub n
  | .keyword .if_ => conditional sub n
  | .keyword .for_ => countedLoop sub
  | .keyword .while_ => conditionalLoop sub
  | .keyword .function => functionDefinition sub n
  | _ => unexpected atomStart

/-- An atom, possibly with arguments after it. The result of a call is not called again unless it
stands in parentheses. -/
def call (sub : Nested) (n : Nat) : Rule Expr := do
  let callee ← atom sub n
  if ← sees (.symbol .lparen) then
    let _ ← advance
    let arguments ← separated sub.expression .rparen n
    pure (.call callee arguments callee.position)
  else pure callee

/-- A call and any number of exponents, which are read by the rule `exponent`. -/
def power (sub : Nested) (exponent : Rule Expr) (n : Nat) : Rule Expr := do
  let base ← call sub n
  chain BinaryOperator.isPower exponent n base

/-- The sign that a token is, before an operand. -/
def sign? : Token → Option UnaryOperator
  | .symbol .plus => some .plus
  | .symbol .minus => some .negate
  | _ => none

/-- Any number of signs and a power. The exponents of the power are factors again. -/
def factor (sub : Nested) : Nat → Rule Expr
  | 0 => exhausted
  | n + 1 => do
    match sign? (← look Cursor.peek) with
    | some op =>
      let read ← advance
      let operand ← factor sub n
      pure (.unary op operand read.position)
    | none => power sub (factor sub n) (n + 1)

/-! ### Products, sums, comparisons, logic -/

/-- A chain of `*` and `/` over factors. -/
def product (sub : Nested) (n : Nat) : Rule Expr :=
  leftAssociative BinaryOperator.isMultiplicative (factor sub n) n

/-- A chain of `+` and `-` over products. -/
def sum (sub : Nested) (n : Nat) : Rule Expr :=
  leftAssociative BinaryOperator.isAdditive (product sub n) n

/-- Any number of `!` and a chain of comparison operators over sums. -/
def comparison (sub : Nested) : Nat → Rule Expr
  | 0 => exhausted
  | n + 1 => do
    if ← sees (.symbol .bang) then
      let read ← advance
      let operand ← comparison sub n
      pure (.unary .not operand read.position)
    else leftAssociative BinaryOperator.isComparison (sum sub (n + 1)) (n + 1)

/-- A chain of `&&` and `||` over comparisons. -/
def logical (sub : Nested) (n : Nat) : Rule Expr :=
  leftAssociative BinaryOperator.isLogical (comparison sub n) n

/-! ### Expressions and statements -/

/-- `VAR name = value`. -/
def assignment (sub : Nested) : Rule Expr := do
  let p ← expectKeyword .var
  let name ← expectIdentifier
  let _ ← expectSymbol .equals
  let value ← sub.expression
  pure (.assign name value p)

/-- What can stand at the beginning of an expression, in the words of error messages. -/
def expressionStart : String :=
  "'VAR', number, string, identifier, 'IF', 'FOR', 'WHILE', 'FUNCTION', '+', '-', '!', '(' or '['"

/-- An expression, given the rules for what is nested in it. -/
def expressionOver (sub : Nested) (n : Nat) : Rule Expr := do
  if ← seesKeyword .var then assignment sub
  else expecting expressionStart (logical sub n)

/-- The statements after the first one: each is an attempt, and a failed attempt ends the list. -/
def furtherStatements (expression : Rule Expr) : Nat → Rule (List Expr)
  | 0 => exhausted
  | n + 1 => do
    if (← skipNewlines) = 0 then pure []
    else
      match ← attempt expression with
      | some e =>
        let rest ← furtherStatements expression n
        pure (e :: rest)
      | none => pure []

/-- One or more statements, given the rule for one. -/
def statementsOver (expression : Rule Expr) (n : Nat) : Rule Expr := do
  let _ ← skipNewlines
  let first ← expression
  let rest ← furtherStatements expression n
  pure (.list (first :: rest) first.position)

/-- An expression whose nesting is at most `n` deep. -/
def expression : Nat → Rule Expr
  | 0 => exhausted
  | n + 1 => expressionOver ⟨expression n, statementsOver (expression n) n⟩ n

/-- The nested rules of depth at most `n`. -/
def nested (n : Nat) : Nested :=
  ⟨expression n, statementsOver (expression n) n⟩

theorem expression_succ (n : Nat) : expression (n + 1) = expressionOver (nested n) n := rfl

/-! ### Programs -/

/-- Adds an entry to the log. -/
def record (event : Event) : Rule Unit :=
  modify fun c => { c with log := event :: c.log }

/-- Number of elements of a list expression. -/
def statementCount : Expr → Nat
  | .list elements _ => elements.length
  | _ => 0

/-- A whole program: nothing, or statements up to the end of input. -/
def programOver (sub : Nested) : Rule Expr := do
  let _ ← skipNewlines
  if ← sees .eof then
    let p ← look Cursor.position
    pure (.list [] p)
  else
    let tree ← sub.statements
    if ← sees .eof then
      record (.parsed (statementCount tree))
      pure tree
    else failOr (·.unexpected "an operator or end of input")

/-- A bound on nesting and chains that no list of so many tokens reaches: each level and each link
takes a token of its own. -/
def bound (tokens : Nat) : Nat := tokens + 2

end Grammar

/-- Reads a list of tokens as a program; the cursor that is left holds the log of the reading. -/
def parse (tokens : List Located) : Outcome SyntaxError Expr × Cursor :=
  Grammar.programOver (Grammar.nested (Grammar.bound tokens.length)) (.ofTokens tokens)

end LineScript
