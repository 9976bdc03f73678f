import LineScript.Builtin
import LineScript.Outcome

/-!
# The machine

What a running program changes: the scopes with their bindings, and the log. The present instant is
part of the machine as well, but nothing changes it.

  * `Machine.addRoot` creates an outermost scope, `Machine.enter` one inside another.
  * `Machine.addProgram` creates an outermost scope with the constants and the built-in functions
    bound, and `Machine.global` is the machine that has only this scope.
  * `Eval` is a computation on machines that can end in a fault.
-/

namespace LineScript

/-- The state of a run. -/
structure Machine where
  /-- All scopes created so far. -/
  scopes : Scopes
  /-- What happened so far. -/
  log : Log
  /-- The present instant. -/
  clock : Instant

namespace Machine

/-- A machine without scopes. -/
def empty (clock : Instant) : Machine :=
  ⟨.empty, [], clock⟩

/-- A new outermost scope, which is empty. -/
def addRoot (m : Machine) (name : String) : ScopeId × Machine :=
  let (scope, scopes) := m.scopes.add ⟨name, none⟩ none
  (scope, { m with scopes := scopes })

/-- A machine with one scope, which is empty. -/
def ofRoot (name : String) (clock : Instant) : Machine :=
  ((empty clock).addRoot name).2

/-- The number of the first scope. -/
def root : ScopeId := 0

/-- The value that a name has in a scope, if it has one. -/
def lookup (m : Machine) (scope : ScopeId) (name : String) : Option Value :=
  m.scopes.lookup scope name

/-- Binds a name in a scope. -/
def set (m : Machine) (scope : ScopeId) (name : String) (value : Value) : Machine :=
  { m with scopes := m.scopes.set scope name value }

/-- Binds several names in a scope, one after another. -/
def setAll (m : Machine) (scope : ScopeId) (bindings : List (String × Value)) : Machine :=
  bindings.foldl (fun m (name, value) => m.set scope name value) m

/-- Removes a name from a scope and gives the value it had there. -/
def remove (m : Machine) (scope : ScopeId) (name : String) : Option Value × Machine :=
  let (value, scopes) := m.scopes.remove scope name
  (value, { m with scopes := scopes })

/-- A new scope inside `parent`, entered from the given place. -/
def enter (m : Machine) (parent : ScopeId) (name : String) (entry : Position) : ScopeId × Machine :=
  let (scope, scopes) := m.scopes.add ⟨name, some entry⟩ (some parent)
  (scope, { m with scopes := scopes })

/-- Adds an entry to the log. -/
def record (m : Machine) (event : Event) : Machine :=
  { m with log := event :: m.log }

/-- Names that every program starts with, in the order in which they are bound. -/
def globals : List (String × Value) :=
  [("NULL", .null), ("TRUE", .ofBool true), ("FALSE", .ofBool false)] ++
    Builtin.all.map fun b => (b.name, .builtIn b.name)

/-- Name of the outermost scope of a program. -/
def programName : String := "<program>"

/-- A new outermost scope for a program. -/
def addProgram (m : Machine) : ScopeId × Machine :=
  let (scope, m) := m.addRoot programName
  (scope, (m.setAll scope globals).record (.globalsReady Builtin.all.length))

/-- The machine on which a program starts. -/
def global (clock : Instant) : Machine :=
  ((empty clock).addProgram).2

end Machine

/-- A computation on machines. -/
abbrev Eval := Run Machine Fault

namespace Eval

variable {α : Type}

/-- Ends with a fault at a place in a scope. -/
def raise (scope : ScopeId) (p : Position) (cause : Cause) : Eval α :=
  Run.fail ⟨cause, p, scope⟩

/-- A result that is already known; a cause becomes a fault at a place in a scope. -/
def lift (scope : ScopeId) (p : Position) : Except Cause α → Eval α
  | .ok a => pure a
  | .error cause => raise scope p cause

/-- Binds a name in a scope. -/
def bindName (scope : ScopeId) (name : String) (value : Value) : Eval Unit :=
  Run.modify (·.set scope name value)

/-- Adds an entry to the log. -/
def record (event : Event) : Eval Unit :=
  Run.modify (·.record event)

/-- Creates a scope for a call and binds the parameters in it. -/
def enter (parent : ScopeId) (name : String) (entry : Position) (bindings : List (String × Value)) :
    Eval ScopeId := fun m =>
  let (scope, m) := m.enter parent name entry
  (.value scope, m.setAll scope bindings)

end Eval

end LineScript
