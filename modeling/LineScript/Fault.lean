import LineScript.Forest
import LineScript.Value

/-!
# Run-time errors

  * `Cause` is what went wrong; `Cause.message` words it.
  * `Fault` adds where: the place in the source and the scope in which that code ran.
  * `Fault.message` is the whole text. After the cause it has one line for each scope from the one
    where the error arose up to the outermost: its name, and the place reached in it. In the first
    scope that is the place of the error; in every further one it is the place of the call through
    which the scope before it was entered.
-/

namespace LineScript

/-! ### Causes -/

/-- What went wrong. -/
inductive Cause
  /-- A name is bound in no scope that the code can see. -/
  | undefinedVariable (name : String)
  /-- A number was divided by zero. -/
  | divisionByZero
  /-- A number is no index of the list. -/
  | indexOutOfBounds (index : Float) (length : Nat)
  /-- A call with more arguments than parameters. -/
  | tooManyArguments (function : String) (expected found : Nat)
  /-- A call with fewer arguments than parameters. -/
  | tooFewArguments (function : String) (expected found : Nat)
  /-- An operation of two operands that is not defined for their kinds. -/
  | unsupportedOperands (operation : String) (left right : Kind)
  /-- An operation that is not defined for its one operand, or that got none. -/
  | unsupportedOperand (operation : String) (operand : Option Kind)
  /-- A call of a built-in function that does not exist. -/
  | unknownBuiltIn (name : String)
  /-- A call of something that is no function. -/
  | notCallable (found : Kind)

namespace Cause

/-- Text of a cause. -/
def message : Cause → String
  | undefinedVariable name => "'" ++ name ++ "' is not defined"
  | divisionByZero => "Division by zero"
  | indexOutOfBounds index length =>
    "Index " ++ Number.render index ++ " is out of bounds for a list of length " ++ Nat.repr length
  | tooManyArguments function expected found =>
    "Too many arguments passed to '" ++ function ++ "': expected " ++ Nat.repr expected ++
      ", found " ++ Nat.repr found
  | tooFewArguments function expected found =>
    "Too few arguments passed to '" ++ function ++ "': expected " ++ Nat.repr expected ++
      ", found " ++ Nat.repr found
  | unsupportedOperands operation left right =>
    "Unsupported operands for '" ++ operation ++ "': " ++ left.name ++ " and " ++ right.name
  | unsupportedOperand operation operand =>
    "Unsupported operand for '" ++ operation ++ "': " ++ (operand.map Kind.name).getD "nothing"
  | unknownBuiltIn name => "Built-in function '" ++ name ++ "' does not exist"
  | notCallable found => "A value of kind " ++ found.name ++ " cannot be called"

/-- Whether two causes are the same; an index that is no number differs from itself. -/
def same : Cause → Cause → Bool
  | undefinedVariable a, undefinedVariable b => a == b
  | divisionByZero, divisionByZero => true
  | indexOutOfBounds i m, indexOutOfBounds j n => i == j && m == n
  | tooManyArguments f e n, tooManyArguments g e' n' => f == g && e == e' && n == n'
  | tooFewArguments f e n, tooFewArguments g e' n' => f == g && e == e' && n == n'
  | unsupportedOperands o l r, unsupportedOperands o' l' r' => o == o' && l == l' && r == r'
  | unsupportedOperand o k, unsupportedOperand o' k' => o == o' && k == k'
  | unknownBuiltIn a, unknownBuiltIn b => a == b
  | notCallable a, notCallable b => a == b
  | _, _ => false

/-- Text of an error of which only the place is known, not the scope. -/
def report (cause : Cause) (p : Position) : String :=
  "Runtime error: " ++ cause.message ++ ". (" ++ p.render ++ ")"

end Cause

/-! ### Faults -/

/-- What is known about a scope besides its bindings. -/
structure Frame where
  /-- Name of the scope in messages: that of the function whose call created it. -/
  displayName : String
  /-- Place of that call; the outermost scope has none. -/
  entry : Option Position

/-- The scopes of a run. -/
abbrev Scopes := Forest Frame Value

/-- An error in a running program. -/
structure Fault where
  /-- What went wrong. -/
  cause : Cause
  /-- The place of the code that went wrong. -/
  position : Position
  /-- The scope in which that code ran. -/
  scope : ScopeId

namespace Fault

/-- The lines of a trail: each frame with the place reached in it. -/
def trailFrom : Position → List Frame → List (String × Position)
  | _, [] => []
  | p, frame :: frames => (frame.displayName, p) :: trailFrom (frame.entry.getD p) frames

/-- The scopes from that of the fault outwards, each with the place reached in it. -/
def trail (fault : Fault) (scopes : Scopes) : List (String × Position) :=
  trailFrom fault.position ((scopes.lineage fault.scope).filterMap scopes.label?)

/-- Text of a fault. -/
def message (fault : Fault) (scopes : Scopes) : String :=
  (fault.trail scopes).foldl (fun text (name, p) => text ++ "\n  in " ++ name ++ " at " ++ p.render)
    ("Runtime error: " ++ fault.cause.message ++ ".")

/-- Whether two faults have the same cause and place. -/
def same (a b : Fault) : Bool :=
  a.cause.same b.cause && a.position == b.position

end Fault

end LineScript
