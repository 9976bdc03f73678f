import LineScript.Proofs.Evaluation.Frame
import LineScript.Proofs.Evaluation.Uniform

/-!
# Stores with other names for their scopes

A scope is named by its number, and the number depends on how many scopes were created before. Two
stores may hold the same scopes under other numbers, next to scopes of their own that nothing here
refers to.

  * `Scopes.Reaches scopes roots i`: the scope `i` can be reached from the roots, through parents and
    through the functions that are bound in reachable scopes.
  * `Renaming`: which scope of the first store is which of the second, one to one.
  * `Renaming.LikeValue`: values that are the same if the scopes of functions are renamed.
  * `Renaming.Covers ρ roots m m'`: all that can be reached from the roots is renamed, to scopes with
    the same name, place of entry, parent and bindings.
  * `Renaming.Mirrors`: the same for all scopes that are renamed, and the same has been printed since
    a given moment.

**Key idea.** What is reachable changes with every binding, so it is no invariant to work with. What
stays is that everything which is renamed refers to renamed scopes only: of this, reachability is a
consequence.
-/

namespace LineScript

/-! ### Reachability -/

/-- The function is the value or stands in it, at any depth of lists. -/
inductive Value.Holds (f : Closure) : Value → Prop
  | self : Holds f (.function f)
  | element {v : Value} {vs : List Value} (hmem : v ∈ vs) (h : Holds f v) : Holds f (.list vs)

/-- The scopes that can be reached from the roots: the roots, the parents of reachable scopes, and
the scopes that functions bound in reachable scopes close over. -/
inductive Scopes.Reaches (scopes : Scopes) (roots : ScopeId → Prop) : ScopeId → Prop
  | root {i : ScopeId} (h : roots i) : Reaches scopes roots i
  | parent {i p : ScopeId} (h : Reaches scopes roots i) (hparent : scopes.parent? i = some p) :
    Reaches scopes roots p
  | closure {i : ScopeId} {name : String} {v : Value} {f : Closure} (h : Reaches scopes roots i)
    (hbound : scopes.own? i name = some v) (hholds : v.Holds f) : Reaches scopes roots f.scope

/-- Every parent is older than its children, since a scope is only created inside one that exists. -/
def Forest.Grown {ι ν : Type} (f : Forest ι ν) : Prop :=
  ∀ i p, f.parent? i = some p → p < i

/-! ### Renamings -/

/-- Which scope of a store is which of another, one to one. -/
structure Renaming where
  /-- A scope and the one that it is in the other store. -/
  pairs : ScopeId → ScopeId → Prop
  /-- Different scopes are different in the other store, and no scope is two. -/
  unique : ∀ {i i' j j' : ScopeId}, pairs i j → pairs i' j' → (i = i' ↔ j = j')

/-- One renaming extends another. -/
instance : LE Renaming :=
  ⟨fun ρ ρ' => ∀ i j, ρ.pairs i j → ρ'.pairs i j⟩

namespace Renaming

variable {ρ ρ' : Renaming}

/-- The renaming of some scopes only. -/
def only (ρ : Renaming) (may : ScopeId → Prop) : Renaming where
  pairs i j := may i ∧ ρ.pairs i j
  unique h h' := ρ.unique h.2 h'.2

/-- The renaming with one more pair of scopes, which are new in both stores. -/
def add (ρ : Renaming) (n n' : ScopeId) (hnew : ∀ i j, ρ.pairs i j → i ≠ n ∧ j ≠ n') : Renaming where
  pairs i j := ρ.pairs i j ∨ (i = n ∧ j = n')
  unique := by
    rintro i i' j j' (h | ⟨rfl, rfl⟩) (h' | ⟨rfl, rfl⟩)
    · exact ρ.unique h h'
    · obtain ⟨hi, hj⟩ := hnew i j h
      exact ⟨fun heq => absurd heq hi, fun heq => absurd heq hj⟩
    · obtain ⟨hi, hj⟩ := hnew i' j' h'
      exact ⟨fun heq => absurd heq.symm hi, fun heq => absurd heq.symm hj⟩
    · exact ⟨fun _ => rfl, fun _ => rfl⟩

/-! ### Values -/

/-- The same function in renamed scopes. -/
structure LikeClosure (ρ : Renaming) (f f' : Closure) : Prop where
  /-- The names are the same. -/
  name : f'.name = f.name
  /-- The parameters are the same. -/
  params : f'.params = f.params
  /-- The bodies are the same. -/
  body : f'.body = f.body
  /-- The scope is renamed. -/
  scope : ρ.pairs f.scope f'.scope

/-- The same value with the scopes of functions renamed. -/
inductive LikeValue (ρ : Renaming) : Value → Value → Prop
  | number (x : Float) : LikeValue ρ (.number x) (.number x)
  | text (s : String) : LikeValue ρ (.text s) (.text s)
  | list {vs vs' : List Value} (h : List.Forall₂ (LikeValue ρ) vs vs') :
    LikeValue ρ (.list vs) (.list vs')
  | function {f f' : Closure} (h : ρ.LikeClosure f f') : LikeValue ρ (.function f) (.function f')
  | builtIn (name : String) : LikeValue ρ (.builtIn name) (.builtIn name)

theorem LikeClosure.displayName {f f' : Closure} (h : ρ.LikeClosure f f') :
    f'.displayName = f.displayName := by
  rw [Closure.displayName, h.name, Closure.displayName]

/-- Operators and built-in functions do not look at scopes. -/
theorem uniform_likeValue (ρ : Renaming) : Uniform ρ.LikeValue where
  layer h := by
    cases h with
    | number x => exact .number x
    | text s => exact .text s
    | list h => exact .list h
    | function h => exact .function h.displayName
    | builtIn name => exact .builtIn name
  number := .number
  text := .text
  list := .list

mutual

/-- For a value only the scopes of the functions in it matter. -/
theorem LikeValue.transfer : ∀ v v' : Value, ρ.LikeValue v v' →
    (∀ f j, v.Holds f → ρ.pairs f.scope j → ρ'.pairs f.scope j) → ρ'.LikeValue v v'
  | .number x, _, h, _ => by cases h; exact .number x
  | .text s, _, h, _ => by cases h; exact .text s
  | .list vs, _, h, hpairs => by
    cases h with
    | list hs =>
      exact .list (LikeValue.transferAll vs _ hs fun v hv f j hf => hpairs f j (.element hv hf))
  | .function f, _, h, hpairs => by
    cases h with
    | function hf =>
      exact .function ⟨hf.name, hf.params, hf.body, hpairs f _ .self hf.scope⟩
  | .builtIn name, _, h, _ => by cases h; exact .builtIn name
termination_by structural v => v

theorem LikeValue.transferAll : ∀ vs vs' : List Value, List.Forall₂ ρ.LikeValue vs vs' →
    (∀ v ∈ vs, ∀ f j, v.Holds f → ρ.pairs f.scope j → ρ'.pairs f.scope j) →
      List.Forall₂ ρ'.LikeValue vs vs'
  | [], _, h, _ => by cases h; exact .nil
  | v :: vs, _, h, hpairs => by
    obtain ⟨hfirst, hrest⟩ := List.forall_mem_cons.mp hpairs
    cases h with
    | cons hv hvs =>
      exact .cons (LikeValue.transfer v _ hv hfirst) (LikeValue.transferAll vs _ hvs hrest)
termination_by structural vs => vs

end

theorem LikeValue.mono {v v' : Value} (h : ρ.LikeValue v v') (hle : ρ ≤ ρ') : ρ'.LikeValue v v' :=
  .transfer v v' h fun _ _ _ hpair => hle _ _ hpair

theorem likeValues_mono {vs vs' : List Value} (h : List.Forall₂ ρ.LikeValue vs vs') (hle : ρ ≤ ρ') :
    List.Forall₂ ρ'.LikeValue vs vs' :=
  h.imp fun _ _ hv => hv.mono hle

/-- A function in a value is renamed with it. -/
theorem LikeValue.of_holds {f : Closure} {v v' : Value} (hf : v.Holds f) (h : ρ.LikeValue v v') :
    ∃ f', ρ.LikeClosure f f' := by
  induction hf generalizing v' with
  | self =>
    cases h with
    | function hf => exact ⟨_, hf⟩
  | @element v vs hmem _ ih =>
    cases h with
    | @list _ vs' hs =>
      obtain ⟨k, hk⟩ := List.mem_iff_getElem?.mp hmem
      have hrel := Uniform.getElem? hs k
      rw [hk] at hrel
      generalize vs'[k]? = found at hrel
      cases hrel with
      | some hv => exact ih hv

/-! ### Scopes -/

/-- The same scope with renamed parent and bindings. -/
structure LikeScope (ρ : Renaming) (s s' : Scope Frame Value) : Prop where
  /-- The name and the place of entry are the same. -/
  label : s'.label = s.label
  /-- The parent is renamed. -/
  parent : Option.Rel ρ.pairs s.parent s'.parent
  /-- The same names are bound, to values that are the same with scopes renamed. -/
  bindings : ∀ name, Option.Rel ρ.LikeValue (s.bindings.get? name) (s'.bindings.get? name)

/-- Scopes of two stores that are the same with scopes renamed. -/
def LikeAt (ρ : Renaming) (scopes scopes' : Scopes) (i j : ScopeId) : Prop :=
  ∃ s s', scopes.scopes[i]? = some s ∧ scopes'.scopes[j]? = some s' ∧ ρ.LikeScope s s'

section stores

variable {scopes scopes' : Scopes} {i j : ScopeId}

theorem LikeAt.label (h : ρ.LikeAt scopes scopes' i j) : scopes'.label? j = scopes.label? i := by
  obtain ⟨s, s', hs, hs', hlike⟩ := h
  rw [Forest.label?, Forest.label?, hs, hs', Option.map_some, Option.map_some, hlike.label]

theorem LikeAt.parent (h : ρ.LikeAt scopes scopes' i j) :
    Option.Rel ρ.pairs (scopes.parent? i) (scopes'.parent? j) := by
  obtain ⟨s, s', hs, hs', hlike⟩ := h
  rw [Forest.parent?, Forest.parent?, hs, hs', Option.bind_some, Option.bind_some]
  exact hlike.parent

theorem LikeAt.own (h : ρ.LikeAt scopes scopes' i j) (name : String) :
    Option.Rel ρ.LikeValue (scopes.own? i name) (scopes'.own? j name) := by
  obtain ⟨s, s', hs, hs', hlike⟩ := h
  rw [Forest.own?, Forest.own?, hs, hs', Option.bind_some, Option.bind_some]
  exact hlike.bindings name

theorem LikeAt.lt (h : ρ.LikeAt scopes scopes' i j) : i < scopes.size ∧ j < scopes'.size := by
  obtain ⟨s, s', hs, hs', -⟩ := h
  exact ⟨(Array.getElem?_eq_some_iff.mp hs).1, (Array.getElem?_eq_some_iff.mp hs').1⟩

/-- For a scope only its parent and the scopes of the functions bound in it matter. -/
theorem LikeAt.transfer (h : ρ.LikeAt scopes scopes' i j)
    (hparent : ∀ p q, scopes.parent? i = some p → ρ.pairs p q → ρ'.pairs p q)
    (hbound : ∀ name v f k, scopes.own? i name = some v → v.Holds f → ρ.pairs f.scope k →
      ρ'.pairs f.scope k) : ρ'.LikeAt scopes scopes' i j := by
  obtain ⟨s, s', hs, hs', hlike⟩ := h
  refine ⟨s, s', hs, hs', hlike.label, ?_, ?_⟩
  · have hrel := hlike.parent
    rw [Forest.parent?, hs, Option.bind_some] at hparent
    generalize s.parent = p, s'.parent = q at hrel hparent
    cases hrel with
    | none => exact .none
    | some hpair => exact .some (hparent _ _ rfl hpair)
  · intro name
    have hrel := hlike.bindings name
    have hname := hbound name
    rw [Forest.own?, hs, Option.bind_some] at hname
    generalize s.bindings.get? name = v, s'.bindings.get? name = v' at hrel hname
    cases hrel with
    | none => exact .none
    | some hv => exact .some (.transfer _ _ hv fun f k => hname _ f k rfl)

theorem LikeAt.mono (h : ρ.LikeAt scopes scopes' i j) (hle : ρ ≤ ρ') :
    ρ'.LikeAt scopes scopes' i j :=
  h.transfer (fun _ _ _ hpair => hle _ _ hpair) fun _ _ _ _ _ _ hpair => hle _ _ hpair

end stores

/-- All that can be reached from the roots is renamed, to scopes that are the same with scopes
renamed. The renaming may say anything about the other scopes of the two stores. -/
structure Covers (ρ : Renaming) (roots : ScopeId → Prop) (scopes scopes' : Scopes) : Prop where
  /-- In the first store parents are older than their children. -/
  grown : scopes.Grown
  /-- In the second store parents are older than their children. -/
  grown' : scopes'.Grown
  /-- Only scopes of the two stores are renamed. -/
  within : ∀ i j, ρ.pairs i j → i < scopes.size ∧ j < scopes'.size
  /-- What can be reached is renamed and is the same. -/
  like : ∀ i, scopes.Reaches roots i → ∃ j, ρ.pairs i j ∧ ρ.LikeAt scopes scopes' i j

/-! ### Machines -/

/-- Two logs that go on, after some lines each, with the same lines. -/
def PrintsLike (before before' : List String) (log log' : Log) : Prop :=
  ∃ lines, Log.printed log = before ++ lines ∧ Log.printed log' = before' ++ lines

/-- Machines at the same instant in which every renamed scope is the same with scopes renamed, and
which have printed the same after the given lines. -/
structure Mirrors (ρ : Renaming) (before before' : List String) (m m' : Machine) : Prop where
  /-- In the first store parents are older than their children. -/
  grown : m.scopes.Grown
  /-- In the second store parents are older than their children. -/
  grown' : m'.scopes.Grown
  /-- Renamed scopes are the same. -/
  scopes : ∀ i j, ρ.pairs i j → ρ.LikeAt m.scopes m'.scopes i j
  /-- The same lines were printed. -/
  printed : PrintsLike before before' m.log m'.log
  /-- The instants are the same. -/
  clock : m'.clock = m.clock

section machines

variable {before before' : List String} {m m' : Machine} {i j : ScopeId}

/-- The lineage of a renamed scope is renamed. -/
theorem Mirrors.lineage (h : ρ.Mirrors before before' m m') (hpair : ρ.pairs i j) :
    List.Forall₂ ρ.pairs (m.scopes.lineage i) (m'.scopes.lineage j) := by
  -- the limits are never reached, since the numbers go down along a lineage
  have hupTo : ∀ limit limit' i j, ρ.pairs i j → i < limit → j < limit' →
      List.Forall₂ ρ.pairs (m.scopes.lineageUpTo limit i) (m'.scopes.lineageUpTo limit' j) := by
    intro limit
    induction limit with
    | zero => exact fun _ i _ _ hi _ => absurd hi (Nat.not_lt_zero i)
    | succ limit ih =>
      intro limit' i j hpair hi hj
      cases limit' with
      | zero => exact absurd hj (Nat.not_lt_zero j)
      | succ limit' =>
        rw [Forest.lineageUpTo, Forest.lineageUpTo]
        refine .cons hpair ?_
        have hparent := (h.scopes i j hpair).parent
        have hgrown := h.grown i
        have hgrown' := h.grown' j
        generalize m.scopes.parent? i = p, m'.scopes.parent? j = q at hparent hgrown hgrown'
        cases hparent with
        | none => exact .nil
        | @some p q hpair' =>
          exact ih limit' p q hpair' (Nat.lt_of_lt_of_le (hgrown p rfl) (Nat.le_of_lt_succ hi))
            (Nat.lt_of_lt_of_le (hgrown' q rfl) (Nat.le_of_lt_succ hj))
  exact hupTo _ _ i j hpair (Nat.lt_succ_self i) (Nat.lt_succ_self j)

/-- A name has the same value with scopes renamed. -/
theorem Mirrors.lookup (h : ρ.Mirrors before before' m m') (hpair : ρ.pairs i j) (name : String) :
    Option.Rel ρ.LikeValue (m.lookup i name) (m'.lookup j name) := by
  have hlineage := h.lineage hpair
  unfold Machine.lookup Forest.lookup
  rw [Forest.lookupUpTo_eq_findSome?, Forest.lookupUpTo_eq_findSome?]
  unfold Forest.lineage at hlineage
  generalize m.scopes.lineageUpTo (i + 1) i = is, m'.scopes.lineageUpTo (j + 1) j = js at hlineage
  induction hlineage with
  | nil => exact .none
  | @cons k l _ _ hkl _ ih =>
    have hown := (h.scopes k l hkl).own name
    rw [List.findSome?_cons, List.findSome?_cons]
    generalize m.scopes.own? k name = v, m'.scopes.own? l name = v' at hown
    cases hown with
    | none => exact ih
    | some hv => exact .some hv

/-- The frames from a renamed scope outwards are the same. -/
theorem Mirrors.frames (h : ρ.Mirrors before before' m m') (hpair : ρ.pairs i j) :
    (m'.scopes.lineage j).filterMap m'.scopes.label? =
      (m.scopes.lineage i).filterMap m.scopes.label? := by
  have hlineage := h.lineage hpair
  generalize m.scopes.lineage i = is, m'.scopes.lineage j = js at hlineage
  induction hlineage with
  | nil => rfl
  | @cons k l _ _ hkl _ ih =>
    rw [List.filterMap_cons, List.filterMap_cons, (h.scopes k l hkl).label, ih]

theorem Mirrors.fresh (h : ρ.Mirrors before before' m m') (i j : ScopeId) (hpair : ρ.pairs i j) :
    i ≠ m.scopes.size ∧ j ≠ m'.scopes.size := by
  obtain ⟨hi, hj⟩ := (h.scopes i j hpair).lt
  exact ⟨Nat.ne_of_lt hi, Nat.ne_of_lt hj⟩

end machines

end Renaming

theorem Forest.Grown.set {scopes : Scopes} (h : scopes.Grown) (i : ScopeId) (name : String)
    (v : Value) : (scopes.set i name v).Grown := by
  intro k p hparent
  rw [Forest.parent?_set] at hparent
  exact h k p hparent

theorem Forest.Grown.add {scopes : Scopes} (h : scopes.Grown) (frame : Frame) {parent : ScopeId}
    (hparent : parent < scopes.size) : (scopes.add frame (some parent)).2.Grown := by
  intro k p hk
  rw [Forest.parent?_add] at hk
  split at hk
  · next hnew =>
    cases hk
    rw [hnew]
    exact hparent
  · exact h k p hk

theorem Log.printed_append (log log' : Log) :
    Log.printed (log ++ log') = Log.printed log' ++ Log.printed log := by
  simp only [Log.printed, Log.inOrder, List.reverse_append, List.filterMap_append]

theorem Log.printed_cons (event : Event) (log : Log) :
    Log.printed (event :: log) = Log.printed log ++ event.line?.toList := by
  have hlast : [event].filterMap Event.line? = event.line?.toList := by
    cases hline : event.line? <;> simp [hline]
  rw [Log.printed, Log.inOrder, List.reverse_cons, List.filterMap_append, hlast]
  rfl

namespace Renaming

variable {ρ : Renaming} {before before' : List String} {m m' : Machine} {i j : ScopeId}

/-- Binding a name in a renamed scope. -/
theorem Mirrors.set (h : ρ.Mirrors before before' m m') (hpair : ρ.pairs i j) (name : String)
    {v v' : Value} (hv : ρ.LikeValue v v') :
    ρ.Mirrors before before' (m.set i name v) (m'.set j name v') := by
  refine ⟨h.grown.set i name v, h.grown'.set j name v', ?_, h.printed, h.clock⟩
  intro k l hkl
  obtain ⟨s, s', hs, hs', hlike⟩ := h.scopes k l hkl
  by_cases hk : k = i
  · obtain rfl := hk
    obtain rfl := (ρ.unique hkl hpair).mp rfl
    refine ⟨{ s with bindings := s.bindings.set name v },
      { s' with bindings := s'.bindings.set name v' }, ?_, ?_, hlike.label, hlike.parent, ?_⟩
    · rw [Machine.scopes_set_self, hs, Option.map_some]
    · rw [Machine.scopes_set_self, hs', Option.map_some]
    · intro other
      rw [Bindings.get?_set, Bindings.get?_set]
      split
      · exact .some hv
      · exact hlike.bindings other
  · -- one to one: another scope is another one in the second store, too
    have hl : l ≠ j := mt (ρ.unique hkl hpair).mpr hk
    refine ⟨s, s', ?_, ?_, hlike⟩
    · rw [Machine.scopes_set_of_ne m name v hk, hs]
    · rw [Machine.scopes_set_of_ne m' name v' hl, hs']

theorem Mirrors.setAll (h : ρ.Mirrors before before' m m') (hpair : ρ.pairs i j)
    (names : List String) {vs vs' : List Value} (hvs : List.Forall₂ ρ.LikeValue vs vs') :
    ρ.Mirrors before before' (m.setAll i (names.zip vs)) (m'.setAll j (names.zip vs')) := by
  induction names generalizing m m' vs vs' with
  | nil => exact h
  | cons name names ih =>
    cases hvs with
    | nil => exact h
    | cons hv hvs => exact ih (h.set hpair name hv) hvs

/-- Entering a new scope inside a renamed one: the new scopes are renamed, too. -/
theorem Mirrors.enter (h : ρ.Mirrors before before' m m') (hpair : ρ.pairs i j) (name : String)
    (p : Position) :
    (ρ.add m.scopes.size m'.scopes.size h.fresh).Mirrors before before' (m.enter i name p).2
      (m'.enter j name p).2 := by
  obtain ⟨hi, hj⟩ := (h.scopes i j hpair).lt
  have hle : ρ ≤ ρ.add m.scopes.size m'.scopes.size h.fresh := fun _ _ => .inl
  refine ⟨h.grown.add _ hi, h.grown'.add _ hj, ?_, h.printed, h.clock⟩
  rintro k l (hkl | ⟨rfl, rfl⟩)
  · obtain ⟨hk, hl⟩ := (h.scopes k l hkl).lt
    obtain ⟨s, s', hs, hs', hlike⟩ := (h.scopes k l hkl).mono hle
    refine ⟨s, s', ?_, ?_, hlike⟩
    · rw [(m.extends_enter i name p).same k hk, hs]
    · rw [(m'.extends_enter j name p).same l hl, hs']
  · refine ⟨⟨⟨name, some p⟩, some i, []⟩, ⟨⟨name, some p⟩, some j, []⟩, ?_, ?_, rfl,
      .some (.inl hpair), fun _ => .none⟩
    · exact m.scopes_enter_new i name p
    · exact m'.scopes_enter_new j name p

/-- Entries that print the same. -/
theorem Mirrors.record (h : ρ.Mirrors before before' m m') (event : Event) :
    ρ.Mirrors before before' (m.record event) (m'.record event) := by
  refine ⟨h.grown, h.grown', h.scopes, ?_, h.clock⟩
  obtain ⟨lines, hlines, hlines'⟩ := h.printed
  refine ⟨lines ++ event.line?.toList, ?_, ?_⟩
  · rw [Machine.record, Log.printed_cons, hlines, List.append_assoc]
  · rw [Machine.record, Log.printed_cons, hlines', List.append_assoc]

theorem Mirrors.recordAll (h : ρ.Mirrors before before' m m') (events : List Event) :
    ρ.Mirrors before before' (events.foldl Machine.record m) (events.foldl Machine.record m') := by
  induction events generalizing m m' with
  | nil => exact h
  | cons event events ih => exact ih (h.record event)

end Renaming

end LineScript
