import LineScript.Expr.Printer

/-!
# Values

What expressions evaluate to: numbers, strings, lists, functions and built-in functions. There are
no truth values of their own; comparisons give the numbers one and zero.

  * `Value` and, for functions, `Closure`.
  * `Kind` is the class of a value, as error messages name it.
  * `Value.truth?` is the truth of a number or a string; nothing else can be a condition.
  * `Value.same` compares two values. Functions are compared by name, parameters and body, not by
    the scope they close over.
  * `Value.render` is the text of a value: a string is bare, but quoted inside a list.
-/

namespace LineScript

/-- Number of a scope; see `Forest`. -/
abbrev ScopeId := Nat

/-- A function defined in a program, with the scope in which its definition was evaluated. -/
structure Closure where
  /-- Name, if it was defined with one. -/
  name : Option String
  /-- Parameters in order. -/
  params : List String
  /-- What a call carries out. -/
  body : Body
  /-- The scope that the body sees. -/
  scope : ScopeId

namespace Closure

/-- Name of a function in messages. -/
def displayName (f : Closure) : String :=
  f.name.getD "<anonymous>"

/-- Whether two functions have the same name, parameters and body. -/
def same (f g : Closure) : Bool :=
  f.name == g.name && f.params == g.params && f.body.same g.body

end Closure

/-- A value. -/
inductive Value
  /-- A double. -/
  | number (value : Float)
  /-- A string. -/
  | text (value : String)
  /-- A list. -/
  | list (elements : List Value)
  /-- A function defined in a program. -/
  | function (closure : Closure)
  /-- A built-in function, by name. -/
  | builtIn (name : String)

/-- The class of a value. -/
inductive Kind
  | number | string | list | function | builtIn
  deriving DecidableEq

/-- Name of a kind in messages. -/
def Kind.name : Kind → String
  | number => "number"
  | string => "string"
  | list => "list"
  | function => "function"
  | builtIn => "built-in function"

namespace Value

/-- The value of a conditional without a matching case, and of an empty block. -/
def null : Value := number 0

/-- The number that stands for a truth value. -/
def ofBool (b : Bool) : Value :=
  number (if b then 1 else 0)

/-- The class of a value. -/
def kind : Value → Kind
  | number _ => .number
  | text _ => .string
  | list _ => .list
  | function _ => .function
  | builtIn _ => .builtIn

/-- Truth of a value: numbers other than zero and strings other than the empty one are true; other
kinds have no truth. A NaN is not zero. -/
def truth? : Value → Option Bool
  | number x => some (x != 0)
  | text s => some (!s.isEmpty)
  | _ => none

end Value

/-! ### Comparison -/

mutual

/-- Whether two values are the same. -/
def Value.same : Value → Value → Bool
  | .number a, .number b => a == b
  | .text a, .text b => a == b
  | .list as, .list bs => Value.sameAll as bs
  | .function f, .function g => f.same g
  | .builtIn a, .builtIn b => a == b
  | _, _ => false
termination_by structural v => v

/-- Whether two lists of values are the same, one by one. -/
def Value.sameAll : List Value → List Value → Bool
  | [], [] => true
  | a :: as, b :: bs => a.same b && Value.sameAll as bs
  | _, _ => false
termination_by structural vs => vs

end

/-! ### Text -/

mutual

/-- Text of a value; a string is quoted if the value stands in a list. -/
def Value.renderIn (inList : Bool) : Value → String
  | .number x => Number.render x
  | .text s => if inList then Text.quote s else s
  | .list elements => "[" ++ ", ".intercalate (Value.renderEach elements) ++ "]"
  | .function f => "<function " ++ f.displayName ++ ">"
  | .builtIn name => "<built-in function " ++ name ++ ">"

/-- Texts of the elements of a list. -/
def Value.renderEach : List Value → List String
  | [] => []
  | v :: vs => v.renderIn true :: Value.renderEach vs

end

/-- Text of a value. -/
def Value.render (v : Value) : String :=
  v.renderIn false

/-! ### Blocks -/

/-- The value of a body whose expression evaluated to `v`. A block yields the value of its first
statement only. -/
def Body.yield : Body → Value → Value
  | .inline _, v => v
  | .block _, .list (first :: _) => first
  | .block _, .list [] => .null
  | .block _, v => v

end LineScript
