import LineScript.Program

/-!
# The command line

  * `Invocation` is what the arguments ask for: a program, either given on the command line or in a
    file, the stage up to which it is to be processed, and how much of the log is wanted.
  * `Invocation.ofArgs?` reads the arguments. Flags can stand anywhere before `--`; one-letter flags
    can be joined; the only flag that can be repeated is the one for the log.
  * `Invocation.execute` does the work and gives what is to be written and the exit code.
-/

namespace LineScript

/-- How far a program is processed. -/
inductive Stage
  /-- List the tokens. -/
  | tokens
  /-- Print the tree. -/
  | ast
  /-- Run the program and print the values of its statements. -/
  | eval
  deriving DecidableEq

/-- The stage of a name. -/
def Stage.ofName? : String → Option Stage
  | "tokens" => some tokens
  | "ast" => some ast
  | "eval" => some eval
  | _ => none

/-- What the arguments ask for. -/
structure Invocation where
  /-- Whether the contents are the path of a file. -/
  file : Bool
  /-- How far to go. -/
  stage : Stage
  /-- How often the flag for the log was given. -/
  verbosity : Nat
  /-- A program, or the path of a file that holds one. -/
  contents : String
  deriving DecidableEq

/-! ### Arguments -/

/-- The arguments read so far. -/
structure Arguments where
  /-- Whether `-f` was given. -/
  file : Bool
  /-- The value of `-s`, if it was given. -/
  stage : Option Stage
  /-- How often `-v` was given. -/
  verbosity : Nat
  /-- The argument that is no flag, if it was given. -/
  contents : Option String

namespace Arguments

/-- Nothing read yet. -/
def initial : Arguments := ⟨false, none, 0, none⟩

/-- Notes `-f`, which can be given once. -/
def addFile (a : Arguments) : Option Arguments :=
  if a.file then none else some { a with file := true }

/-- Notes `-v`. -/
def addVerbose (a : Arguments) : Arguments :=
  { a with verbosity := a.verbosity + 1 }

/-- Notes the value of `-s`, which can be given once. -/
def addStage (a : Arguments) (value : List Char) : Option Arguments :=
  match a.stage, Stage.ofName? (String.ofList value) with
  | none, some stage => some { a with stage := some stage }
  | _, _ => none

/-- Notes an argument that is no flag, which can be given once. -/
def addContents (a : Arguments) (value : String) : Option Arguments :=
  match a.contents with
  | none => some { a with contents := some value }
  | some _ => none

/-- What remains to be done after one argument. -/
inductive Pending
  /-- Nothing. -/
  | ready (a : Arguments)
  /-- The next argument is the value of `-s`. -/
  | wantsStage (a : Arguments)

/-- Reads joined one-letter flags. What follows an `s` is its value, after an optional `=`; if
nothing does, the next argument is. -/
def addShort (a : Arguments) : List Char → Option Pending
  | [] => some (.ready a)
  | 'f' :: cs => do addShort (← a.addFile) cs
  | 'v' :: cs => addShort a.addVerbose cs
  | ['s'] => some (.wantsStage a)
  | 's' :: '=' :: value => (a.addStage value).map .ready
  | 's' :: value => (a.addStage value).map .ready
  | _ => none

/-- Reads a flag with a long name; a value may follow after `=`. -/
def addLong (a : Arguments) (flag : List Char) : Option Pending :=
  let name := flag.takeWhile (· != '=')
  match String.ofList name, flag.drop name.length with
  | "file", [] => a.addFile.map .ready
  | "verbose", [] => some (.ready a.addVerbose)
  | "stage", [] => some (.wantsStage a)
  | "stage", _ :: value => (a.addStage value).map .ready
  | _, _ => none

/-- Whether an argument is taken for a flag: it starts with a minus and is not a minus alone. -/
def isFlag : List Char → Bool
  | '-' :: _ :: _ => true
  | _ => false

/-- Reads one argument before `--`. -/
def addOne (a : Arguments) (argument : String) : Option Pending :=
  match argument.toList with
  | '-' :: '-' :: flag => a.addLong flag
  | '-' :: c :: cs => a.addShort (c :: cs)
  | _ => (a.addContents argument).map .ready

/-- Reads all arguments. After `--` none of them is a flag; a flag cannot be the value of `-s`. -/
def addAll : Pending → List String → Option Arguments
  | .ready a, [] => some a
  | .ready a, "--" :: rest => rest.foldlM addContents a
  | .ready a, argument :: rest =>
    match a.addOne argument with
    | some pending => addAll pending rest
    | none => none
  | .wantsStage _, [] => none
  | .wantsStage a, value :: rest =>
    if isFlag value.toList then none
    else
      match a.addStage value.toList with
      | some a => addAll (.ready a) rest
      | none => none

end Arguments

namespace Invocation

/-- What the arguments ask for, if they can be understood. Without `-s` a program is run. -/
def ofArgs? (args : List String) : Option Invocation := do
  let a ← Arguments.addAll (.ready .initial) args
  let contents ← a.contents
  pure ⟨a.file, a.stage.getD .eval, a.verbosity, contents⟩

/-- The least important log entries that are wanted. -/
def level (i : Invocation) : Level :=
  match i.verbosity with
  | 0 => .info
  | 1 => .debug
  | _ => .trace

end Invocation

/-! ### Work -/

/-- What a run of the program leaves behind. -/
structure Transcript where
  /-- Exit code. -/
  code : Nat
  /-- What goes to standard output. -/
  stdout : String
  /-- What goes to standard error, the log aside. -/
  stderr : String
  /-- The log. -/
  log : Log

namespace Transcript

/-- The end after a success that writes the given lines. -/
def success (lines : List String) (log : Log) : Transcript :=
  ⟨0, lines.foldl (fun text line => text ++ line ++ "\n") "", "", log⟩

/-- The end after an error. -/
def failure (message : String) (log : Log) : Transcript :=
  ⟨1, "", message ++ "\n", log⟩

end Transcript

/-- One line for each token. -/
def tokenLines (tokens : List Located) : List String :=
  tokens.map fun t => t.position.render ++ ": " ++ t.token.describe

/-- One line for each statement's value. -/
def valueLines : Value → List String
  | .list values => values.map Value.render
  | v => [v.render]

/-- Processes a program up to a stage and gives the lines to be written. -/
def process (n : Nat) (stage : Stage) (script : String) : Run Machine Error (List String) := do
  let tokens ← readTokens script
  if stage = .tokens then pure (tokenLines tokens)
  else
    let program ← readProgram tokens
    if stage = .ast then pure [program.render]
    else
      let v ← evaluate n Machine.root program
      pure (valueLines v)

namespace Invocation

/-- Does what was asked for, given the program's text, or nothing if its file could not be read.
There is no transcript if the run reaches the bound `n`. -/
def execute (i : Invocation) (n : Nat) (clock : Instant) (script : Option String) :
    Option Transcript :=
  match script with
  | none =>
    some (.failure ("Failed to read the input file '" ++ i.contents ++
      "'. Perhaps this file does not exist?") [])
  | some script =>
    match process n i.stage script (.global clock) with
    | (.value lines, m) => some (.success lines m.log)
    | (.error e, m) => some (.failure (e.message m.scopes) m.log)
    | (.exhausted, _) => none

end Invocation

end LineScript
