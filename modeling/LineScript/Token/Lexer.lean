import LineScript.Token

/-!
# From text to tokens

The lexer reads a text from left to right. Blanks are dropped; at any other character it takes the
longest lexeme that starts there and reads on after it.

  * Character classes: `isBlank`, `isNameStart`, `isNameRest`, `isOperatorChar`.
  * `lexeme c cs` reads the lexeme that starts with `c` in the text `c :: cs`. It answers with the
    token and the number of characters of `cs` that belong to it, so the lexeme is
    `c :: cs.take k` and the text goes on with `cs.drop k`.
  * `tokenize` reads a whole text. The list it returns ends with the end-of-input token, placed
    after the last character.

**Runs.** Characters of the class `isOperatorChar` are read as one run, and the whole run must be an
operator: `=>=` is refused and not read as `=>` followed by `=`.
-/

namespace LineScript

/-! ### Errors -/

/-- What is wrong with a lexeme. -/
inductive Flaw
  /-- No lexeme starts with this character. -/
  | illegalCharacter (character : Char)
  /-- A run of operator characters that is no operator. -/
  | malformedOperator (run : String)
  /-- A string without a closing quote. -/
  | malformedString
  deriving DecidableEq

/-- A text that cannot be split into tokens: the first flaw and the place where its lexeme starts.
-/
structure LexError where
  /-- What is wrong. -/
  flaw : Flaw
  /-- Where the bad lexeme starts. -/
  position : Position
  deriving DecidableEq

/-- Text of a lexical error. -/
def LexError.message (e : LexError) : String :=
  match e.flaw with
  | .illegalCharacter c =>
    "Illegal character '" ++ c.toString ++ "' at " ++ e.position.render ++ "."
  | .malformedOperator run => "Malformed operator '" ++ run ++ "' at " ++ e.position.render ++ "."
  | .malformedString =>
    "Malformed string starting at " ++ e.position.render ++ ": missing closing quote."

namespace Lexer

/-! ### Character classes -/

/-- Space, tab, carriage return and form feed separate lexemes and mean nothing. -/
def isBlank (c : Char) : Bool :=
  c == ' ' || c == '\t' || c == '\r' || c == '\x0c'

/-- A line feed or the mark `⁋` ends a statement. -/
def isSeparator (c : Char) : Bool :=
  c == '\n' || c == '⁋'

/-- A name starts with an ASCII letter or `ñ`, `Ñ`. -/
def isNameStart (c : Char) : Bool :=
  c.isAlpha || c == 'ñ' || c == 'Ñ'

/-- A name goes on with ASCII letters, digits, `_` and the accented letters of Latin-1. -/
def isNameRest (c : Char) : Bool :=
  c.isAlphanum || c == '_' || ('À' ≤ c && c ≤ 'Ö') || ('Ø' ≤ c && c ≤ 'ö') || ('ø' ≤ c && c ≤ 'ÿ')

/-- The characters that join into operator runs. -/
def isOperatorChar (c : Char) : Bool :=
  c == '=' || c == '!' || c == '<' || c == '>' || c == '&' || c == '|'

/-! ### Lexemes -/

/-- Reads the rest of a string, after its opening quote: the value, and the number of characters up
to and including the closing quote. A backslash makes the next character stand for itself. -/
def stringRest : List Char → Option (List Char × Nat)
  | [] => none
  | '"' :: _ => some ([], 1)
  | ['\\'] => none
  | '\\' :: c :: cs => (stringRest cs).map fun (value, k) => (c :: value, k + 2)
  | c :: cs => (stringRest cs).map fun (value, k) => (c :: value, k + 1)

/-- Reads a number whose first digit is `c`: digits, then possibly a point and more digits. -/
def number (c : Char) (cs : List Char) : Token × Nat :=
  let whole := cs.takeWhile Char.isDigit
  match cs.drop whole.length with
  | '.' :: rest =>
    let fraction := rest.takeWhile Char.isDigit
    (.float (String.ofList (c :: whole ++ '.' :: fraction)), whole.length + 1 + fraction.length)
  | _ => (.int (String.ofList (c :: whole)), whole.length)

/-- Reads a name whose first character is `c`; a name spelled like a keyword is that keyword. -/
def name (c : Char) (cs : List Char) : Token × Nat :=
  let rest := cs.takeWhile isNameRest
  let text := String.ofList (c :: rest)
  match Keyword.ofSpelling? text with
  | some word => (.keyword word, rest.length)
  | none => (.identifier text, rest.length)

/-- Reads a run of operator characters that starts with `c`. -/
def operator (c : Char) (cs : List Char) : Except Flaw (Token × Nat) :=
  let rest := cs.takeWhile isOperatorChar
  match Symbol.ofRun? (c :: rest) with
  | some mark => .ok (.symbol mark, rest.length)
  | none => .error (.malformedOperator (String.ofList (c :: rest)))

/-- Reads the lexeme that starts with the character `c`, which is not blank: its token, and how many
characters of the following text `cs` belong to it. -/
def lexeme (c : Char) (cs : List Char) : Except Flaw (Token × Nat) :=
  if c.isDigit then .ok (number c cs)
  else if c = '"' then
    match stringRest cs with
    | some (value, k) => .ok (.str (String.ofList value), k)
    | none => .error .malformedString
  else if isNameStart c then .ok (name c cs)
  else if isOperatorChar c then operator c cs
  else if isSeparator c then .ok (.newline, 0)
  else match Symbol.ofChar? c with
    | some mark => .ok (.symbol mark, 0)
    | none => .error (.illegalCharacter c)

/-! ### Whole texts -/

/-- Reads the tokens of a text whose first character stands at `p`. The first `skip` characters
belong to a lexeme that has already been read and only move the position. -/
def tokensFrom (p : Position) : Nat → List Char → Except LexError (List Located)
  | _, [] => .ok [⟨.eof, p⟩]
  | skip + 1, c :: cs => tokensFrom (p.advance c) skip cs
  | 0, c :: cs =>
    if isBlank c then tokensFrom (p.advance c) 0 cs
    else
      match lexeme c cs with
      | .ok (token, k) => (tokensFrom (p.advance c) k cs).map (⟨token, p⟩ :: ·)
      | .error flaw => .error ⟨flaw, p⟩

end Lexer

/-- The tokens of a text, ending with the end of input, or the first thing in it that is no token.
-/
def tokenize (source : String) : Except LexError (List Located) :=
  Lexer.tokensFrom .start 0 source.toList

end LineScript
