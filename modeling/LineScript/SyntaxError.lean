import LineScript.Token

/-!
# Syntax errors

Why a list of tokens is no program: a token that does not fit, or a block that is not closed. Both
name the token that was found and its place.
-/

namespace LineScript

/-- The first thing that is wrong with a list of tokens. -/
inductive SyntaxError
  /-- A token stands where something else was expected. -/
  | unexpected (expected : String) (found : Token) (position : Position)
  /-- The block that `construct` opened goes on into a token that cannot be part of it. -/
  | unclosed (construct : Keyword) (found : Token) (position : Position)
  deriving DecidableEq

namespace SyntaxError

/-- Where the error is. -/
def position : SyntaxError → Position
  | unexpected _ _ p | unclosed _ _ p => p

/-- The token that was found. -/
def found : SyntaxError → Token
  | unexpected _ t _ | unclosed _ t _ => t

/-- Text of a syntax error. -/
def message : SyntaxError → String
  | unexpected expected found p =>
    "Syntax error at " ++ p.render ++ ": expected " ++ expected ++ ", found " ++
      found.describe ++ "."
  | unclosed construct found p =>
    "Syntax error at " ++ p.render ++ ": '" ++ construct.spelling ++
      "' block is not closed, expected 'END' but found " ++ found.describe ++ "."

end SyntaxError

end LineScript
