import LineScript.Cursor
import LineScript.Outcome

/-!
# Rules

A rule of the grammar reads something at a cursor. It gives a value or an error, and in both cases
the cursor as it then stands: an error does not undo what was read.

  * `Rule` is a run over a cursor. Its outcome `exhausted` means that a bound on depth or length was
    reached; the bounds are chosen so that this does not happen on lists of tokens that end with the
    end of input.
  * `Rule.attempt` turns an error into a rewind, `Rule.expecting` words an error anew when nothing
    was read.
-/

namespace LineScript

/-- A rule of the grammar. -/
abbrev Rule := Run Cursor SyntaxError

namespace Rule

variable {α : Type}

/-! ### Single tokens -/

/-- Whether the current token is `token`. -/
def sees (token : Token) : Rule Bool :=
  Run.look fun c => decide (c.peek = token)

/-- Whether the current token is the keyword `word`. -/
def seesKeyword (word : Keyword) : Rule Bool :=
  sees (.keyword word)

/-- Reads one token, whatever it is. -/
def advance : Rule Located := fun c => (.value c.current, c.advance)

/-- Fails at the current token. -/
def unexpected (expected : String) : Rule α := fun c => (.error (c.unexpected expected), c)

/-- Reads the given token and gives its place. -/
def expect (token : Token) (expected : String) : Rule Position := do
  if ← sees token then
    let read ← advance
    pure read.position
  else unexpected expected

/-- Reads the given symbol. -/
def expectSymbol (mark : Symbol) : Rule Position :=
  expect (.symbol mark) (Token.symbol mark).describe

/-- Reads the given keyword. -/
def expectKeyword (word : Keyword) : Rule Position :=
  expect (.keyword word) (Token.keyword word).describe

/-- Reads a name. -/
def expectIdentifier : Rule String := do
  match ← Run.look Cursor.peek with
  | .identifier name =>
    let _ ← advance
    pure name
  | _ => unexpected "identifier"

/-- Reads any number of separators and counts them. -/
def skipNewlines : Rule Nat := fun c =>
  let (count, c) := c.skipNewlines
  (.value count, c)

/-! ### Errors -/

/-- Fails with the error recorded for the current index, if there is one, and otherwise with
`error`. -/
def failOr (error : Cursor → SyntaxError) : Rule α := fun c =>
  let (e, c) := c.setbackOr (error c)
  (.error e, c)

/-- Tries a rule. When it fails the cursor goes back to where the rule started. -/
def attempt (rule : Rule α) : Rule (Option α) := fun c =>
  match rule c with
  | (.value a, d) => (.value (some a), d)
  | (.error e, d) => (.value none, d.rewind c.index e)
  | (.exhausted, d) => (.exhausted, d)

/-- When the rule fails on its very first token, says what was expected there. -/
def expecting (expected : String) (rule : Rule α) : Rule α := fun c =>
  match rule c with
  | (.error e, d) => (.error (if d.index = c.index then d.unexpected expected else e), d)
  | reply => reply

/-! ### Lists -/

/-- Reads items separated by commas up to the closing symbol; there is at least one. -/
def items (item : Rule α) (closing : Symbol) : Nat → Rule (List α)
  | 0 => Run.exhausted
  | n + 1 => do
    let first ← item
    let token ← Run.look Cursor.peek
    if token = .symbol .comma then
      let _ ← advance
      let rest ← items item closing n
      pure (first :: rest)
    else if token = .symbol closing then
      let _ ← advance
      pure [first]
    else unexpected ("',' or " ++ (Token.symbol closing).describe)

/-- Reads items separated by commas up to the closing symbol; there may be none. -/
def separated (item : Rule α) (closing : Symbol) (n : Nat) : Rule (List α) := do
  if ← sees (.symbol closing) then
    let _ ← advance
    pure []
  else items item closing n

end Rule

end LineScript
