/-!
# Scopes

A scope binds names to values and may have a parent, where names are looked up that it does not bind
itself. Scopes are created one after another and never disappear, so together they form a forest in
which every parent is older than its children.

  * `Bindings` is the table of one scope.
  * `Scope` adds a parent and a label; what a label is, the forest does not care.
  * `Forest` holds all scopes. A scope is named by its number, in the order of creation.
  * `Forest.lookup` finds the nearest binding of a name; `Forest.set` and `Forest.remove` work on
    one scope alone.
-/

namespace LineScript

/-! ### One table -/

/-- Names with their values; each name occurs at most once. -/
abbrev Bindings (ν : Type) := List (String × ν)

namespace Bindings

variable {ν : Type}

/-- The value of a name. -/
def get? (table : Bindings ν) (name : String) : Option ν :=
  table.lookup name

/-- The table without a name. -/
def remove (table : Bindings ν) (name : String) : Bindings ν :=
  table.filter (·.1 != name)

/-- The table with a name bound to a value, in place of any other value it had. -/
def set (table : Bindings ν) (name : String) (value : ν) : Bindings ν :=
  (name, value) :: table.remove name

@[simp] theorem get?_nil (name : String) : get? ([] : Bindings ν) name = none := rfl

theorem get?_cons (entry : String × ν) (table : Bindings ν) (name : String) :
    get? (entry :: table) name = if entry.1 = name then some entry.2 else get? table name := by
  obtain ⟨key, value⟩ := entry
  simp only [get?, List.lookup_cons]
  by_cases h : name = key
  · simp [h]
  · have hne : ¬ key = name := fun h' => h h'.symm
    have hb : (name == key) = false := by simpa using h
    simp [hne, hb]

theorem get?_remove (table : Bindings ν) (name other : String) :
    (table.remove name).get? other = if other = name then none else table.get? other := by
  induction table with
  | nil => simp [remove]
  | cons entry table ih =>
    -- an entry for `name` is dropped, any other entry stays
    by_cases h : entry.1 = name <;> grind [remove, get?_cons]

theorem get?_set (table : Bindings ν) (name other : String) (value : ν) :
    (table.set name value).get? other = if other = name then some value else table.get? other := by
  by_cases h : other = name
  · simp [set, get?_cons, h]
  · have hne : ¬ name = other := fun h' => h h'.symm
    simp [set, get?_cons, get?_remove, h, hne]

end Bindings

/-! ### The forest -/

/-- One scope. -/
structure Scope (ι ν : Type) where
  /-- What is known about the scope besides its bindings. -/
  label : ι
  /-- The scope that is asked next for a name. -/
  parent : Option Nat
  /-- The names bound in this scope. -/
  bindings : Bindings ν

/-- All scopes created so far; the number of a scope is its index. -/
structure Forest (ι ν : Type) where
  /-- The scopes in the order of their creation. -/
  scopes : Array (Scope ι ν)

namespace Forest

variable {ι ν : Type}

/-- No scope at all. -/
def empty : Forest ι ν := ⟨#[]⟩

/-- Number of scopes, which is the number of the next one. -/
def size (f : Forest ι ν) : Nat :=
  f.scopes.size

/-- A new scope without bindings, and its number. -/
def add (f : Forest ι ν) (label : ι) (parent : Option Nat) : Nat × Forest ι ν :=
  (f.size, ⟨f.scopes.push ⟨label, parent, []⟩⟩)

/-- The parent of a scope. -/
def parent? (f : Forest ι ν) (i : Nat) : Option Nat :=
  f.scopes[i]?.bind Scope.parent

/-- The label of a scope. -/
def label? (f : Forest ι ν) (i : Nat) : Option ι :=
  f.scopes[i]?.map Scope.label

/-- The value that a scope itself binds a name to. -/
def own? (f : Forest ι ν) (i : Nat) (name : String) : Option ν :=
  f.scopes[i]?.bind (·.bindings.get? name)

/-- A scope, its parent, its parent's parent and so on, at most `limit` of them. -/
def lineageUpTo (f : Forest ι ν) : Nat → Nat → List Nat
  | 0, _ => []
  | limit + 1, i =>
    i :: match f.parent? i with
      | some p => f.lineageUpTo limit p
      | none => []

/-- A scope and all its ancestors, the nearest first. Since parents are older than their children
there are at most `i` ancestors. -/
def lineage (f : Forest ι ν) (i : Nat) : List Nat :=
  f.lineageUpTo (i + 1) i

/-- The nearest binding of a name in a scope and at most `limit - 1` of its ancestors. -/
def lookupUpTo (f : Forest ι ν) (name : String) : Nat → Nat → Option ν
  | 0, _ => none
  | limit + 1, i =>
    match f.own? i name with
    | some v => some v
    | none =>
      match f.parent? i with
      | some p => f.lookupUpTo name limit p
      | none => none

/-- The nearest binding of a name, in the scope itself or one of its ancestors. -/
def lookup (f : Forest ι ν) (i : Nat) (name : String) : Option ν :=
  f.lookupUpTo name (i + 1) i

/-- Looking up is asking the lineage one by one. -/
theorem lookupUpTo_eq_findSome? (f : Forest ι ν) (name : String) (limit i : Nat) :
    f.lookupUpTo name limit i = (f.lineageUpTo limit i).findSome? (f.own? · name) := by
  induction limit generalizing i with
  | zero => rfl
  | succ limit ih =>
    rw [lookupUpTo, lineageUpTo, List.findSome?_cons]
    cases f.own? i name with
    | some v => rfl
    | none =>
      cases f.parent? i with
      | some p => exact ih p
      | none => rfl

/-- Binds a name in a scope. -/
def set (f : Forest ι ν) (i : Nat) (name : String) (value : ν) : Forest ι ν :=
  ⟨f.scopes.modify i fun s => { s with bindings := s.bindings.set name value }⟩

/-- Removes the binding of a name from a scope and gives the value it had there. -/
def remove (f : Forest ι ν) (i : Nat) (name : String) : Option ν × Forest ι ν :=
  (f.own? i name, ⟨f.scopes.modify i fun s => { s with bindings := s.bindings.remove name }⟩)

/-! ### What they change -/

/-- The forest after a change of the table of one scope. -/
def change (f : Forest ι ν) (i : Nat) (g : Bindings ν → Bindings ν) : Forest ι ν :=
  ⟨f.scopes.modify i fun s => { s with bindings := g s.bindings }⟩

section changes

variable (f : Forest ι ν) (g : Bindings ν → Bindings ν) (label : ι) (parent : Option Nat)
  (i j : Nat) (name other : String) (value : ν)

theorem set_eq_change : f.set i name value = f.change i (·.set name value) := rfl

theorem remove_eq_change : f.remove i name = (f.own? i name, f.change i (·.remove name)) := rfl

@[simp] theorem size_add : (f.add label parent).2.size = f.size + 1 :=
  Array.size_push ..

@[simp] theorem size_change : (f.change i g).size = f.size :=
  Array.size_modify ..

theorem parent?_add :
    (f.add label parent).2.parent? j = if j = f.size then parent else f.parent? j := by
  rw [add, size, parent?, parent?, Array.getElem?_push]
  split <;> rfl

@[simp] theorem parent?_change : (f.change i g).parent? j = f.parent? j := by
  rw [change, parent?, parent?, Array.getElem?_modify]
  split
  · cases f.scopes[j]? <;> rfl
  · rfl

@[simp] theorem label?_change : (f.change i g).label? j = f.label? j := by
  rw [change, label?, label?, Array.getElem?_modify]
  split
  · cases f.scopes[j]? <;> rfl
  · rfl

@[simp] theorem size_set : (f.set i name value).size = f.size :=
  f.size_change (·.set name value) i

@[simp] theorem size_remove : (f.remove i name).2.size = f.size :=
  f.size_change (·.remove name) i

@[simp] theorem parent?_set : (f.set i name value).parent? j = f.parent? j :=
  f.parent?_change (·.set name value) i j

@[simp] theorem parent?_remove : (f.remove i name).2.parent? j = f.parent? j :=
  f.parent?_change (·.remove name) i j

@[simp] theorem label?_set : (f.set i name value).label? j = f.label? j :=
  f.label?_change (·.set name value) i j

@[simp] theorem label?_remove : (f.remove i name).2.label? j = f.label? j :=
  f.label?_change (·.remove name) i j

/-- A new scope binds nothing. -/
@[simp] theorem own?_add : (f.add label parent).2.own? j name = f.own? j name := by
  rw [add, own?, own?, Array.getElem?_push]
  split
  · next hlast =>
    rw [hlast, Array.getElem?_eq_none (Nat.le_refl _)]
    rfl
  · rfl

/-- A change of one table is seen in its own scope only. -/
theorem own?_change :
    (f.change i g).own? j name =
      if i = j then f.scopes[j]?.bind (fun s => (g s.bindings).get? name) else f.own? j name := by
  rw [change, own?, own?, Array.getElem?_modify]
  split
  · cases f.scopes[j]? <;> rfl
  · rfl

/-- Nothing is bound in a scope that does not exist. -/
theorem own?_set :
    (f.set i name value).own? j other =
      if i < f.size ∧ j = i ∧ other = name then some value else f.own? j other := by
  rw [set_eq_change, own?_change]
  by_cases hij : i = j
  · subst hij
    by_cases hi : i < f.size
    · have hthere : f.scopes[i]? = some f.scopes[i] := Array.getElem?_eq_getElem hi
      simp [own?, hthere, hi, Bindings.get?_set]
    · have hnone : f.scopes[i]? = none := Array.getElem?_eq_none (Nat.le_of_not_lt hi)
      simp [own?, hnone, hi]
  · have hji : ¬ j = i := fun h => hij h.symm
    simp [hij, hji]

theorem own?_remove :
    (f.remove i name).2.own? j other = if j = i ∧ other = name then none else f.own? j other := by
  rw [remove_eq_change, own?_change]
  by_cases hij : i = j
  · subst hij
    cases hs : f.scopes[i]? <;> simp [own?, hs, Bindings.get?_remove]
  · have hji : ¬ j = i := fun h => hij h.symm
    simp [hij, hji]

end changes

end Forest

end LineScript
