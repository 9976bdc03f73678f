import LineScript.Event

/-!
# A cursor over tokens

The grammar reads tokens through a cursor: a list of tokens, an index into it, and the record of one
attempt that was given up.

  * `Cursor.current` is the token at the index. Past the end it is the last token, and in an empty
    list the end of input.
  * `Cursor.advance` moves on, but never past the last token.
  * `Cursor.rewind` goes back to the start of a failed attempt and keeps its error as a *setback*.
    A setback counts only at the index it was recorded for: `Cursor.takeSetback` gives it back there
    and nowhere else.
-/

namespace LineScript

/-- Why an attempt that started at `index` was given up. -/
structure Setback where
  /-- Index of the token where the attempt started. -/
  index : Nat
  /-- What was wrong. -/
  error : SyntaxError
  deriving DecidableEq

/-- A place in a list of tokens. -/
structure Cursor where
  /-- All tokens. -/
  tokens : Array Located
  /-- Index of the current token. -/
  index : Nat
  /-- The attempt that was given up last, if its error is still to be reported. -/
  setback : Option Setback
  /-- What happened while reading. -/
  log : Log

namespace Cursor

/-- A cursor at the first of the given tokens. -/
def ofTokens (tokens : List Located) : Cursor :=
  ⟨tokens.toArray, 0, none, []⟩

/-! ### Looking -/

/-- The current token with its place. -/
def current (c : Cursor) : Located :=
  (c.tokens[c.index]?.or c.tokens.back?).getD ⟨.eof, .start⟩

/-- The current token. -/
def peek (c : Cursor) : Token :=
  c.current.token

/-- The place of the current token. -/
def position (c : Cursor) : Position :=
  c.current.position

/-- The error that the current token is not what was expected. -/
def unexpected (c : Cursor) (expected : String) : SyntaxError :=
  .unexpected expected c.peek c.position

/-! ### Moving -/

/-- The next token, or the last one again. -/
def advance (c : Cursor) : Cursor :=
  if c.index + 1 < c.tokens.size then { c with index := c.index + 1 } else c

/-- So many tokens back, but not before the first. -/
def reverse (c : Cursor) (count : Nat) : Cursor :=
  { c with index := c.index - count }

/-- Moves past at most `limit` separators and counts them. -/
def skipNewlinesUpTo : Nat → Cursor → Nat × Cursor
  | 0, c => (0, c)
  | limit + 1, c =>
    if c.peek = .newline then
      let (count, c) := skipNewlinesUpTo limit c.advance
      (count + 1, c)
    else (0, c)

/-- Moves past all separators and counts them. -/
def skipNewlines (c : Cursor) : Nat × Cursor :=
  skipNewlinesUpTo c.tokens.size c

/-! ### Setbacks -/

/-- Records a failed attempt. The first record for an index stands; a record for another index takes
its place. -/
def recordSetback (c : Cursor) (index : Nat) (error : SyntaxError) : Cursor :=
  match c.setback with
  | some s => if s.index = index then c else { c with setback := some ⟨index, error⟩ }
  | none => { c with setback := some ⟨index, error⟩ }

/-- The error recorded for the current index, which is thereby used up. -/
def takeSetback (c : Cursor) : Option SyntaxError × Cursor :=
  match c.setback with
  | some s => if s.index = c.index then (some s.error, { c with setback := none }) else (none, c)
  | none => (none, c)

/-- The error recorded for the current index, or else the given one. -/
def setbackOr (c : Cursor) (error : SyntaxError) : SyntaxError × Cursor :=
  match c.takeSetback with
  | (some recorded, c) => (recorded, c)
  | (none, c) => (error, c)

/-- Goes back to the index where a failed attempt started. An attempt that had moved on leaves a
setback; one that failed at its first token leaves none. -/
def rewind (c : Cursor) (start : Nat) (error : SyntaxError) : Cursor :=
  let count := c.index - start
  if 0 < count then
    ({ c with log := .rewound count error :: c.log }.recordSetback start error).reverse count
  else c

end Cursor

end LineScript
