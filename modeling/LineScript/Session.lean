import LineScript.Program

/-!
# Sessions

A session is a machine together with the scope one is looking at. Besides running programs there,
one can look at its variables, go to the scope around it or into a scope of one's own, and call
functions.

  * `Session.run`, `Session.call` change the machine and give an outcome.
  * `Session.child`, `Session.leave`, `Session.follow` go to another scope.
  * `describeScope` and `describeClosure` are texts for whoever inspects a session.
-/

namespace LineScript

/-! ### Descriptions -/

/-- Text of a position as a record. -/
def Position.describe (p : Position) : String :=
  "Position \x7b offset: " ++ Nat.repr p.offset ++ ", line: " ++ Nat.repr p.line ++ ", column: " ++
    Nat.repr p.column ++ " \x7d"

/-- Text of something that may be missing. -/
def describeOption : Option String → String
  | some text => "Some(" ++ text ++ ")"
  | none => "None"

/-- Name of a scope. -/
def scopeName (scopes : Scopes) (scope : ScopeId) : String :=
  ((scopes.label? scope).map Frame.displayName).getD ""

/-- Text of a scope: its name, the name of its parent and the place it was entered from. -/
def describeScope (scopes : Scopes) (scope : ScopeId) : String :=
  let parent := scopes.parent? scope
  let entry := (scopes.label? scope).bind Frame.entry
  "Context \x7b display_name: " ++ Text.quote (scopeName scopes scope) ++
    ", parent: " ++ describeOption (parent.map fun p => Text.quote (scopeName scopes p)) ++
    ", entry_position: " ++ describeOption (entry.map Position.describe) ++ ", .. \x7d"

/-- Text of a function: its name, its parameters and the scope it closes over. -/
def describeClosure (scopes : Scopes) (f : Closure) : String :=
  "Function \x7b name: " ++ describeOption (f.name.map Text.quote) ++
    ", params: [" ++ ", ".intercalate (f.params.map Text.quote) ++
    "], closure: " ++ Text.quote (scopeName scopes f.scope) ++ ", .. \x7d"

/-! ### Sessions -/

/-- A machine and the scope one is looking at. -/
structure Session where
  /-- The machine. -/
  machine : Machine
  /-- The current scope. -/
  scope : ScopeId

namespace Session

/-- A session in the outermost scope of a machine. -/
def ofMachine (m : Machine) : Session := ⟨m, Machine.root⟩

/-- Runs a program in the current scope. -/
def run (s : Session) (n : Nat) (source : String) : Outcome Error Value × Session :=
  let (outcome, m) := runIn n s.scope source s.machine
  (outcome, { s with machine := m })

/-- The value of a name. -/
def get? (s : Session) (name : String) : Option Value :=
  s.machine.lookup s.scope name

/-- Binds a name in the current scope. -/
def set (s : Session) (name : String) (value : Value) : Session :=
  { s with machine := s.machine.set s.scope name value }

/-- Removes a name from the current scope. -/
def remove (s : Session) (name : String) : Option Value × Session :=
  let (value, m) := s.machine.remove s.scope name
  (value, { s with machine := m })

/-- Goes into a new scope inside the current one. -/
def child (s : Session) (name : String) (entry : Position) : Session :=
  let (scope, m) := s.machine.enter s.scope name entry
  ⟨m, scope⟩

/-- The scope around the current one. -/
def parent? (s : Session) : Option ScopeId :=
  s.machine.scopes.parent? s.scope

/-- Goes to the scope around the current one, if there is one. -/
def leave (s : Session) : Session :=
  { s with scope := s.parent?.getD s.scope }

/-- The function that a name is bound to, if it is one that a program defined. -/
def function? (s : Session) (name : String) : Option Closure :=
  match s.get? name with
  | some (.function f) => some f
  | _ => none

/-- Goes to the scope that a function closes over. -/
def follow (s : Session) (f : Closure) : Session :=
  { s with scope := f.scope }

/-- Calls a function from the current scope. -/
def call (s : Session) (n : Nat) (f : Closure) (arguments : List Value) (p : Position) :
    Outcome Fault Value × Session :=
  let (outcome, m) := Eval.callFunction (eval n) s.scope f arguments p s.machine
  (outcome, { s with machine := m })

/-- Text of the current scope. -/
def describe (s : Session) : String :=
  describeScope s.machine.scopes s.scope

end Session

end LineScript
