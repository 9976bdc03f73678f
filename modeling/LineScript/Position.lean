/-!
# Positions

A position says where a character stands in a source text, in three ways at once: how many
characters precede it, on which line it is and in which column. All three count from zero and count
characters, not bytes.

  * `Position.advance` moves past one character, `Position.advanceAll` past several.
  * `Position.render` is the text shown to people, which counts lines and columns from one.
-/

namespace LineScript

/-- A place in a source text. -/
structure Position where
  /-- Number of characters before this place. -/
  offset : Nat
  /-- Number of line breaks before this place. -/
  line : Nat
  /-- Number of characters between the last line break and this place. -/
  column : Nat
  deriving DecidableEq, Inhabited

namespace Position

/-- The place before the first character. -/
def start : Position := ⟨0, 0, 0⟩

/-- The place after the character `c`: only a line feed starts a new line. -/
def advance (p : Position) (c : Char) : Position :=
  if c = '\n' then ⟨p.offset + 1, p.line + 1, 0⟩
  else ⟨p.offset + 1, p.line, p.column + 1⟩

/-- The place after all of `cs`. -/
def advanceAll (p : Position) (cs : List Char) : Position :=
  cs.foldl advance p

@[simp] theorem advanceAll_nil (p : Position) : p.advanceAll [] = p := rfl

@[simp] theorem advanceAll_cons (p : Position) (c : Char) (cs : List Char) :
    p.advanceAll (c :: cs) = (p.advance c).advanceAll cs := rfl

theorem advanceAll_append (p : Position) (cs ds : List Char) :
    p.advanceAll (cs ++ ds) = (p.advanceAll cs).advanceAll ds := by
  simp [advanceAll]

/-- Text of a position: line and column from one, the index from zero. -/
def render (p : Position) : String :=
  "line " ++ Nat.repr (p.line + 1) ++ ", column " ++ Nat.repr (p.column + 1) ++
    " (index " ++ Nat.repr p.offset ++ ")"

end Position

end LineScript
