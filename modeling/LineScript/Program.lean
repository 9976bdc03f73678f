import LineScript.Eval
import LineScript.Grammar
import LineScript.Token.Lexer

/-!
# Running programs

  * `Error` is any reason why a program has no result: its text, its structure, or its run.
  * `runIn` reads a program and runs it in a scope of a machine; what the program binds stays bound,
    so that several programs can be run one after another.
  * `result` runs a program on a machine of its own.
-/

namespace LineScript

/-! ### Errors -/

/-- Why a program has no result. -/
inductive Error
  /-- The text cannot be split into tokens. -/
  | lexical (error : LexError)
  /-- The tokens are no program. -/
  | structural (error : SyntaxError)
  /-- The program failed while running. -/
  | fault (fault : Fault)

namespace Error

/-- Where the error is. -/
def position : Error → Position
  | lexical e => e.position
  | structural e => e.position
  | fault f => f.position

/-- Text of an error; that of a fault names the scopes it went through. -/
def message (scopes : Scopes) : Error → String
  | lexical e => e.message
  | structural e => e.message
  | fault f => f.message scopes

/-- Whether two errors are the same; for faults, cause and place count. -/
def same : Error → Error → Bool
  | lexical a, lexical b => a == b
  | structural a, structural b => a == b
  | fault a, fault b => a.same b
  | _, _ => false

end Error

/-! ### Stages -/

/-- Splits a text into tokens and records their number. -/
def readTokens (source : String) : Run Machine Error (List Located) := fun m =>
  match tokenize source with
  | .ok tokens => (.value tokens, m.record (.tokenized source.length tokens.length))
  | .error e => (.error (.lexical e), m)

/-- Reads tokens as a program; the log of the reading is added to that of the machine. -/
def readProgram (tokens : List Located) : Run Machine Error Expr := fun m =>
  let (outcome, c) := parse tokens
  (outcome.mapError .structural, { m with log := c.log ++ m.log })

/-- Evaluates a program in a scope. -/
def evaluate (n : Nat) (scope : ScopeId) (program : Expr) : Run Machine Error Value := fun m =>
  let (outcome, m) := eval n scope program m
  (outcome.mapError .fault, m)

/-! ### Whole programs -/

/-- Reads a program and runs it in a scope. The value is the list of the values of its statements.
-/
def runIn (n : Nat) (scope : ScopeId) (source : String) : Run Machine Error Value := do
  let tokens ← readTokens source
  Run.modify (·.record (.tokensReady tokens.length))
  let program ← readProgram tokens
  Run.modify (·.record (.programReady program))
  evaluate n scope program

/-- Runs a program on a machine of its own. -/
def result (n : Nat) (clock : Instant) (source : String) : Outcome Error Value × Machine :=
  runIn n Machine.root source (Machine.global clock)

/-! ### Comparison -/

/-- Whether two outcomes are the same, given when values and errors are. -/
def Outcome.same {ε α : Type} (sameError : ε → ε → Bool) (sameValue : α → α → Bool) :
    Outcome ε α → Outcome ε α → Bool
  | value a, value b => sameValue a b
  | error a, error b => sameError a b
  | _, _ => false

/-- Whether two texts have the same tokens or fail with the same error. -/
def sameTokens (a b : String) : Bool :=
  match tokenize a, tokenize b with
  | .ok s, .ok t => s == t
  | .error d, .error e => d == e
  | _, _ => false

/-- Whether two lists of tokens are read as the same tree or fail with the same error. -/
def sameReading (a b : List Located) : Bool :=
  (parse a).1.same (· == ·) Expr.same (parse b).1

/-- Whether two programs have the same result or fail with the same error. -/
def sameResult (n : Nat) (clock : Instant) (a b : String) : Bool :=
  (result n clock a).1.same Error.same Value.same (result n clock b).1

end LineScript
