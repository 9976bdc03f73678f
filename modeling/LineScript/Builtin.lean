import LineScript.Calendar
import LineScript.Event
import LineScript.Value.Operators

/-!
# Built-in functions

  * `Builtin` is one of the five functions that every program starts with; `Builtin.all` lists them
    in the order in which they are bound.
  * `Builtin.apply` is what each does. It is given the present instant and the arguments, and
    answers with a value or a cause, and with what it adds to the log.
  * `checkArity` compares the number of arguments with that of the parameters, for built-in and
    other functions alike.
-/

namespace LineScript

/-- The number of arguments must be that of the parameters. -/
def checkArity (function : String) (expected found : Nat) : Except Cause Unit :=
  if found = expected then .ok ()
  else if expected < found then .error (.tooManyArguments function expected found)
  else .error (.tooFewArguments function expected found)

/-- A built-in function. -/
inductive Builtin
  /-- Prints a value and gives it back. -/
  | print
  /-- Date and time. -/
  | now
  /-- Length of a list or a string. -/
  | len
  /-- Version of the language. -/
  | version
  /-- A summary of the language. -/
  | help
  deriving DecidableEq

namespace Builtin

/-- All built-in functions. -/
def all : List Builtin :=
  [print, now, len, version, help]

/-- Name by which programs call a built-in function. -/
def name : Builtin → String
  | print => "PRINT"
  | now => "NOW"
  | len => "LEN"
  | version => "VERSION"
  | help => "HELP"

/-- Number of parameters. -/
def arity : Builtin → Nat
  | print => 1
  | now => 0
  | len => 1
  | version => 0
  | help => 0

/-- The built-in function of a name. -/
def ofName? (name : String) : Option Builtin :=
  all.find? (·.name == name)

/-- What `VERSION` gives. -/
def versionText : String := "0.1.0"

/-- What `HELP` gives. -/
def helpText : String :=
  "Statements are separated by newlines or '⁋'.\n" ++
  "  VAR name = expr                       bind a variable in the current scope\n" ++
  "  IF c THEN a ELIF d THEN b ELSE e      conditional; blocks close with END\n" ++
  "  FOR i = start TO end STEP s THEN body counted loop, end exclusive\n" ++
  "  WHILE c THEN body                     conditional loop\n" ++
  "  FUNCTION name(a, b) => expr           function; a newline opens a block body\n" ++
  "  list + v, list - i, list / i          append, remove and index\n" ++
  "Built-ins: PRINT(value), NOW(), LEN(list), VERSION(), HELP()\n" ++
  "Constants: NULL, TRUE, FALSE"

/-- Length of a list, or number of characters of a string. -/
def length : Option Value → Except Cause Value
  | some (.list elements) => .ok (.number (Number.ofCount elements.length))
  | some (.text s) => .ok (.number (Number.ofCount s.length))
  | other => .error (.unsupportedOperand "LEN" (other.map Value.kind))

/-- What a built-in function does with its arguments at the given instant: its result, and the
entries it adds to the log. -/
def apply (b : Builtin) (clock : Instant) (arguments : List Value) :
    Except Cause Value × List Event :=
  match b with
  | print =>
    let v := arguments.head?.getD .null
    (.ok v, [.printed v.render])
  | now => (.ok (.text clock.render), [])
  | len => (length arguments.head?, [])
  | version => (.ok (.text versionText), [])
  | help => (.ok (.text helpText), [])

end Builtin

end LineScript
