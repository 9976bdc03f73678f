import LineScript.Expr
import LineScript.Number
import LineScript.Text.Quoted

/-!
# Printed trees

A tree on one line, with every operator, construct and definition in parentheses, so that its
structure can be read off: `1 + 2 * x` is printed `(1 + (2 * x))`. A block is printed in braces with
its statements separated by semicolons, a call as the callee followed by its arguments.

  * `Expr.render`, `Body.render` and `Chain.render` print the three kinds of tree.
  * `Expr.renderEach` prints several expressions.
-/

namespace LineScript

mutual

/-- Text of an expression. -/
def Expr.render : Expr → String
  | .number value _ => Number.render value
  | .text value _ => Text.quote value
  | .list elements _ => "[" ++ ", ".intercalate (Expr.renderEach elements) ++ "]"
  | .name name _ => name
  | .assign name value _ => "(VAR " ++ name ++ " = " ++ value.render ++ ")"
  | .binary op left right _ =>
    "(" ++ left.render ++ " " ++ op.symbol.spelling ++ " " ++ right.render ++ ")"
  | .unary op operand _ => "(" ++ op.symbol.spelling ++ operand.render ++ ")"
  | .ifThen condition body rest _ =>
    "(IF " ++ condition.render ++ " THEN " ++ body.render ++ rest.render ++ ")"
  | .forTo var start stop step body _ =>
    "(FOR " ++ var ++ " = " ++ start.render ++ " TO " ++ stop.render ++ Expr.renderStep step ++
      " THEN " ++ body.render ++ ")"
  | .whileDo condition body _ => "(WHILE " ++ condition.render ++ " THEN " ++ body.render ++ ")"
  | .function name params body _ =>
    "(FUNCTION " ++ name.getD "" ++ "(" ++ ", ".intercalate params ++ ") => " ++ body.render ++ ")"
  | .call callee arguments _ =>
    callee.render ++ "(" ++ ", ".intercalate (Expr.renderEach arguments) ++ ")"

/-- Texts of several expressions. -/
def Expr.renderEach : List Expr → List String
  | [] => []
  | e :: es => e.render :: Expr.renderEach es

/-- Text of the step of a loop, if it has one. -/
def Expr.renderStep : Option Expr → String
  | none => ""
  | some e => " STEP " ++ e.render

/-- Text of a body: an expression as it is, a block in braces. -/
def Body.render : Body → String
  | .inline e => e.render
  | .block (.list statements _) => "\x7b" ++ "; ".intercalate (Expr.renderEach statements) ++ "\x7d"
  | .block e => "\x7b" ++ e.render ++ "\x7d"

/-- Text of what follows a case of a conditional. -/
def Chain.render : Chain → String
  | .done => ""
  | .otherwise body => " ELSE " ++ body.render
  | .elif condition body rest =>
    " ELIF " ++ condition.render ++ " THEN " ++ body.render ++ rest.render

end

end LineScript
