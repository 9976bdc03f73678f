import LineScript.Position

/-!
# Tokens

The words of the language: numbers, strings, keywords, identifiers, symbols, statement separators
and the end of the input.

  * `Keyword` and `Symbol` are the fixed words; `spelling` gives their text.
  * `Token` is one word; a number keeps the text it was written with.
  * `Token.describe` is the name of a token in error messages.
  * `Located` is a token together with the place of its first character.
-/

namespace LineScript

/-! ### Fixed words -/

/-- Words that cannot be used as names. `CONST`, `LET` and `DO` are reserved and open no
construct. -/
inductive Keyword
  | const | let_ | var | if_ | then_ | elif | else_ | for_ | to_ | step | while_ | do_
  | function | end_
  deriving DecidableEq

namespace Keyword

/-- How a keyword is written. -/
def spelling : Keyword → String
  | const => "CONST"
  | let_ => "LET"
  | var => "VAR"
  | if_ => "IF"
  | then_ => "THEN"
  | elif => "ELIF"
  | else_ => "ELSE"
  | for_ => "FOR"
  | to_ => "TO"
  | step => "STEP"
  | while_ => "WHILE"
  | do_ => "DO"
  | function => "FUNCTION"
  | end_ => "END"

/-- Every keyword, once. -/
def all : List Keyword :=
  [const, let_, var, if_, then_, elif, else_, for_, to_, step, while_, do_, function, end_]

/-- The keyword written `text`, if there is one. -/
def ofSpelling? (text : String) : Option Keyword :=
  all.find? (·.spelling == text)

end Keyword

/-- Operators, brackets and punctuation. -/
inductive Symbol
  | plus | minus | star | slash | caret
  | lparen | rparen | lbracket | rbracket | comma
  | equals | equalEqual | bangEqual | less | greater | lessEqual | greaterEqual
  | andAnd | orOr | bang | arrow
  deriving DecidableEq

namespace Symbol

/-- How a symbol is written. -/
def spelling : Symbol → String
  | plus => "+"
  | minus => "-"
  | star => "*"
  | slash => "/"
  | caret => "^"
  | lparen => "("
  | rparen => ")"
  | lbracket => "["
  | rbracket => "]"
  | comma => ","
  | equals => "="
  | equalEqual => "=="
  | bangEqual => "!="
  | less => "<"
  | greater => ">"
  | lessEqual => "<="
  | greaterEqual => ">="
  | andAnd => "&&"
  | orOr => "||"
  | bang => "!"
  | arrow => "=>"

/-- The symbols of one character that never join with a neighbour. -/
def ofChar? : Char → Option Symbol
  | '+' => some plus
  | '-' => some minus
  | '*' => some star
  | '/' => some slash
  | '^' => some caret
  | '(' => some lparen
  | ')' => some rparen
  | '[' => some lbracket
  | ']' => some rbracket
  | ',' => some comma
  | _ => none

/-- The symbols made of the characters that join into runs. -/
def ofRun? : List Char → Option Symbol
  | ['='] => some equals
  | ['=', '='] => some equalEqual
  | ['!', '='] => some bangEqual
  | ['<'] => some less
  | ['>'] => some greater
  | ['<', '='] => some lessEqual
  | ['>', '='] => some greaterEqual
  | ['&', '&'] => some andAnd
  | ['|', '|'] => some orOr
  | ['!'] => some bang
  | ['=', '>'] => some arrow
  | _ => none

end Symbol

/-! ### Tokens -/

/-- One word of a program. -/
inductive Token
  /-- A number without a decimal point, as written. -/
  | int (text : String)
  /-- A number with a decimal point, as written. -/
  | float (text : String)
  /-- A string, with its escapes resolved. -/
  | str (value : String)
  /-- A reserved word. -/
  | keyword (word : Keyword)
  /-- A name. -/
  | identifier (name : String)
  /-- An operator, bracket or punctuation mark. -/
  | symbol (mark : Symbol)
  /-- A run of operator characters that is no operator. -/
  | malformed (text : String)
  /-- A statement separator. -/
  | newline
  /-- The end of the input. -/
  | eof
  deriving DecidableEq

namespace Token

/-- Name of a token in messages: fixed words in quotes, others by class and text. -/
def describe : Token → String
  | int text => "number '" ++ text ++ "'"
  | float text => "number '" ++ text ++ "'"
  | str value => "string \"" ++ value ++ "\""
  | keyword word => "'" ++ word.spelling ++ "'"
  | identifier name => "identifier '" ++ name ++ "'"
  | symbol mark => "'" ++ mark.spelling ++ "'"
  | malformed text => "'" ++ text ++ "'"
  | newline => "newline"
  | eof => "end of input"

end Token

/-- A token and the place of its first character. -/
structure Located where
  /-- The word. -/
  token : Token
  /-- Where the word starts. -/
  position : Position
  deriving DecidableEq

end LineScript
