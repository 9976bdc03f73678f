import LineScript.Expr.Printer
import LineScript.SyntaxError

/-!
# The log

What a run leaves behind besides its result: the lines it printed and a record of its steps.

  * `Event` is one entry; `Event.level` is its importance and `Event.message` its text.
  * `Log` is all entries, the latest first, so that adding one is cheap; `Log.inOrder` gives them in
    the order in which they happened, `Log.printed` the printed lines alone.
-/

namespace LineScript

/-- Importance of a log entry. -/
inductive Level
  | trace | debug | info
  deriving DecidableEq

/-- Name of a level. -/
def Level.name : Level → String
  | trace => "TRACE"
  | debug => "DEBUG"
  | info => "INFO"

/-- One entry of the log. -/
inductive Event
  /-- A text of so many characters was split into so many tokens. -/
  | tokenized (characters tokens : Nat)
  /-- A run starts on so many tokens. -/
  | tokensReady (count : Nat)
  /-- A statement was given up after so many tokens. -/
  | rewound (count : Nat) (error : SyntaxError)
  /-- A program of so many statements was read. -/
  | parsed (statements : Nat)
  /-- The tree of the program that is about to run. -/
  | programReady (tree : Expr)
  /-- The global scope was filled. -/
  | globalsReady (builtIns : Nat)
  /-- A counted loop ended. -/
  | forRan (var : String) (position : Position) (iterations : Nat)
  /-- A conditional loop ended. -/
  | whileRan (iterations : Nat)
  /-- A function is called. -/
  | called (name : String) (arguments : Nat)
  /-- A line was printed. -/
  | printed (text : String)

namespace Event

/-- Importance of an entry: printed lines are for the reader, all else is for whoever looks for an
error. -/
def level : Event → Level
  | printed _ => .info
  | programReady _ => .debug
  | _ => .trace

/-- Text of an entry. -/
def message : Event → String
  | tokenized characters tokens =>
    "tokenized " ++ Nat.repr characters ++ " characters into " ++ Nat.repr tokens ++ " tokens"
  | tokensReady count => Nat.repr count ++ " tokens"
  | rewound count error => "backtracking over " ++ Nat.repr count ++ " tokens: " ++ error.message
  | parsed statements => "parsed " ++ Nat.repr statements ++ " top-level statements"
  | programReady tree => "parsed program: " ++ tree.render
  | globalsReady builtIns => "global context ready with " ++ Nat.repr builtIns ++ " built-ins"
  | forRan var p iterations =>
    "FOR " ++ var ++ " at " ++ p.render ++ " ran " ++ Nat.repr iterations ++ " iterations"
  | whileRan iterations => "WHILE loop ran " ++ Nat.repr iterations ++ " iterations"
  | called name arguments => "calling " ++ name ++ " with " ++ Nat.repr arguments ++ " arguments"
  | printed text => text

/-- The line that an entry printed, if it did. -/
def line? : Event → Option String
  | printed text => some text
  | _ => none

end Event

/-- The entries so far, the latest first. -/
abbrev Log := List Event

namespace Log

/-- The entries in the order in which they happened. -/
def inOrder (log : Log) : List Event :=
  log.reverse

/-- The printed lines in order. -/
def printed (log : Log) : List String :=
  log.inOrder.filterMap Event.line?

end Log

end LineScript
