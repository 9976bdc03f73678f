import LineScript.Forest

/-!
# Histories of scopes

Scopes are created one inside another, and names are bound, removed and looked up in them, in any
order. What a lookup finds can be told from the sequence of these operations alone.

  * `Forest.Operation`, `Forest.perform`: one use of the scopes and what it answers.
  * `Forest.History`: the operations that were carried out on the empty forest, the latest first.
  * `History.Binds h i name v`: the last time that scope `i` was told about `name`, it was told `v`.
  * `History.Outward h i is`: `is` are the scopes from `i` outwards, as they were created.
  * `nearest_binding_over_histories`: what lookups and removals answer after any history, and
    which operations change what a lookup finds.

**Key idea.** `Reflects f h` ties the forest to the history: every scope has the parent it was
created with and binds what it was told last. One operation keeps this, so every history does.
A lookup then walks outwards and stops at the first scope that binds the name.
-/

namespace LineScript.Forest

variable {ι ν : Type}

/-! ### Operations -/

/-- One use of the scopes. -/
inductive Operation (ι ν : Type)
  /-- Creates a scope inside another one or inside none. -/
  | add (label : ι) (parent : Option Nat)
  /-- Binds a name in a scope. -/
  | set (i : Nat) (name : String) (value : ν)
  /-- Removes a name from a scope. -/
  | remove (i : Nat) (name : String)
  /-- Looks a name up from a scope. -/
  | get (i : Nat) (name : String)

/-- What an operation answers. -/
inductive Answer (ν : Type)
  /-- The number of the new scope. -/
  | created (i : Nat)
  /-- Nothing. -/
  | done
  /-- The value of a name, if it has one. -/
  | found (value : Option ν)

namespace Operation

/-- The scope and the name that the operation is about. -/
def target? : Operation ι ν → Option (Nat × String)
  | .add _ _ => none
  | .set i name _ | .remove i name | .get i name => some (i, name)

/-- The parent of the scope that the operation creates, if it creates one. -/
def parent? : Operation ι ν → Option (Option Nat)
  | .add _ parent => some parent
  | .set _ _ _ | .remove _ _ | .get _ _ => none

/-- The operation decides what the scope binds the name to. -/
def Rebinds (i : Nat) (name : String) : Operation ι ν → Prop
  | .set j other _ | .remove j other => j = i ∧ other = name
  | .add _ _ | .get _ _ => False

/-- The operation uses only the first `size` scopes. -/
def Within (size : Nat) : Operation ι ν → Prop
  | .add _ parent => ∀ p, parent = some p → p < size
  | .set i _ _ | .remove i _ | .get i _ => i < size

end Operation

/-- Carries out an operation. -/
def perform (f : Forest ι ν) : Operation ι ν → Answer ν × Forest ι ν
  | .add label parent => (.created (f.add label parent).1, (f.add label parent).2)
  | .set i name value => (.done, f.set i name value)
  | .remove i name => (.found (f.remove i name).1, (f.remove i name).2)
  | .get i name => (.found (f.lookup i name), f)

/-! ### Histories -/

/-- Operations that have been carried out, the latest first. -/
abbrev History (ι ν : Type) := List (Operation ι ν)

namespace History

/-- The forest that the operations make out of the empty one. -/
def forest : History ι ν → Forest ι ν
  | [] => empty
  | op :: h => ((forest h).perform op).2

/-- What an operation answers after all these. -/
def answer (h : History ι ν) (op : Operation ι ν) : Answer ν :=
  (h.forest.perform op).1

/-- The parents that the scopes were created with, in the order of their creation. -/
def parents (h : History ι ν) : List (Option Nat) :=
  h.reverse.filterMap Operation.parent?

/-- Each operation used only scopes that there were by then. -/
def Valid : History ι ν → Prop
  | [] => True
  | op :: h => op.Within (parents h).length ∧ Valid h

/-- The scope was told to bind the name to the value, and was told nothing else about it later. -/
def Binds (h : History ι ν) (i : Nat) (name : String) (v : ν) : Prop :=
  ∃ later earlier, h = later ++ .set i name v :: earlier ∧ ∀ op ∈ later, ¬ op.Rebinds i name

/-- The scope does not bind the name. -/
def Unbound (h : History ι ν) (i : Nat) (name : String) : Prop :=
  ∀ v, ¬ h.Binds i name v

/-- The scopes from one outwards, each created inside the one after it. -/
inductive Outward (h : History ι ν) : Nat → List Nat → Prop
  | outermost {i : Nat} (hparent : h.parents[i]? = some none) : Outward h i [i]
  | inside {i p : Nat} {is : List Nat} (hparent : h.parents[i]? = some (some p))
    (his : Outward h p is) : Outward h i (i :: is)

end History

/-! ### One operation -/

/-- The forests differ at most in what scope `i` binds `name` to. -/
structure AgreeExcept (i : Nat) (name : String) (f f' : Forest ι ν) : Prop where
  /-- There are the same scopes. -/
  size : f'.size = f.size
  /-- They have the labels they had. -/
  label : ∀ j, f'.label? j = f.label? j
  /-- They are inside the scopes they were in. -/
  parent : ∀ j, f'.parent? j = f.parent? j
  /-- Any other scope or name has the binding it had. -/
  own : ∀ j other, (j, other) ≠ (i, name) → f'.own? j other = f.own? j other

section step

variable {f : Forest ι ν} {op : Operation ι ν} {i j : Nat} {name : String}

/-- An operation on a scope and a name changes nothing else. -/
theorem agreeExcept_perform (h : op.target? = some (i, name)) :
    AgreeExcept i name f (f.perform op).2 := by
  cases op with
  | add label parent => cases h
  | get i name => exact ⟨rfl, fun _ => rfl, fun _ => rfl, fun _ _ _ => rfl⟩
  | set i name v =>
    cases h
    refine ⟨f.size_set i name v, fun j => f.label?_set i j name v,
      fun j => f.parent?_set i j name v, ?_⟩
    intro j other hne
    show (f.set i name v).own? j other = _
    rw [own?_set, if_neg]
    rintro ⟨-, rfl, rfl⟩
    exact hne rfl
  | remove i name =>
    cases h
    refine ⟨f.size_remove i name, fun j => f.label?_remove i j name,
      fun j => f.parent?_remove i j name, ?_⟩
    intro j other hne
    show (f.remove i name).2.own? j other = _
    rw [own?_remove, if_neg]
    rintro ⟨rfl, rfl⟩
    exact hne rfl

/-- A binding changes only if the operation is about it. -/
theorem own?_perform_of_ne (h : op.target? ≠ some (j, name)) :
    (f.perform op).2.own? j name = f.own? j name := by
  cases htarget : op.target? with
  | none =>
    cases op with
    | add label parent => exact f.own?_add label parent j name
    | set i other v => cases htarget
    | remove i other => cases htarget
    | get i other => cases htarget
  | some target =>
    obtain ⟨i, other⟩ := target
    apply (agreeExcept_perform htarget).own
    intro heq
    exact h (heq ▸ htarget)

/-- An operation that creates a scope adds one, any other adds none. -/
theorem size_perform : (f.perform op).2.size = f.size + op.parent?.toList.length := by
  cases op with
  | add label parent => exact f.size_add label parent
  | set i other v => exact f.size_set i other v
  | remove i other => exact f.size_remove i other
  | get i other => rfl

/-- No operation moves a scope that is there. -/
theorem parent?_perform (hj : j < f.size) : (f.perform op).2.parent? j = f.parent? j := by
  cases op with
  | add label parent =>
    show (f.add label parent).2.parent? j = _
    rw [parent?_add, if_neg (Nat.ne_of_lt hj)]
  | set i other v => exact f.parent?_set i j other v
  | remove i other => exact f.parent?_remove i j other
  | get i other => rfl

/-- A scope that is created is the last one and has the parent it is created with. -/
theorem parent?_perform_size {p : Option Nat} (h : op.parent? = some p) :
    (f.perform op).2.parent? f.size = p := by
  cases op with
  | add label parent =>
    show (f.add label parent).2.parent? f.size = p
    rw [parent?_add, if_pos rfl]
    exact Option.some.inj h
  | set i other v => cases h
  | remove i other => cases h
  | get i other => cases h

end step

/-! ### Histories -/

namespace History

variable {h : History ι ν} {op : Operation ι ν} {i : Nat} {is : List Nat} {name : String} {v : ν}

theorem parents_cons (op : Operation ι ν) (h : History ι ν) :
    parents (op :: h) = parents h ++ op.parent?.toList := by
  unfold parents
  rw [List.reverse_cons, List.filterMap_append]
  rfl

/-- A scope of a longer history was there before or is created by the last operation. -/
theorem getElem?_parents_cons {p : Option Nat} (hparent : (parents (op :: h))[i]? = some p) :
    i < h.parents.length ∧ h.parents[i]? = some p ∨ i = h.parents.length ∧ op.parent? = some p := by
  rw [parents_cons] at hparent
  by_cases hi : i < h.parents.length
  · rw [List.getElem?_append_left hi] at hparent
    exact .inl ⟨hi, hparent⟩
  · rw [List.getElem?_append_right (Nat.le_of_not_lt hi)] at hparent
    cases hop : op.parent? with
    | none =>
      rw [hop] at hparent
      cases hparent
    | some q =>
      rw [hop, Option.toList_some, List.getElem?_singleton] at hparent
      split at hparent
      · next hlast => exact .inr ⟨by omega, hparent⟩
      · cases hparent

/-- What is bound after an operation: what it has just set, or what was bound before, unless it
decides about that name. -/
theorem binds_cons :
    Binds (op :: h) i name v ↔ op = .set i name v ∨ ¬ op.Rebinds i name ∧ Binds h i name v := by
  constructor
  · rintro ⟨later, earlier, heq, hlater⟩
    cases later with
    | nil =>
      cases heq
      exact .inl rfl
    | cons last later =>
      cases heq
      obtain ⟨hlast, hlater⟩ := List.forall_mem_cons.mp hlater
      exact .inr ⟨hlast, later, earlier, rfl, hlater⟩
  · rintro (rfl | ⟨hop, later, earlier, rfl, hlater⟩)
    · exact ⟨[], h, rfl, List.forall_mem_nil _⟩
    · exact ⟨op :: later, earlier, rfl, List.forall_mem_cons.mpr ⟨hop, hlater⟩⟩

/-- A scope is created after its parent. -/
theorem Valid.parent_lt {p : Nat} (hvalid : h.Valid) (hparent : h.parents[i]? = some (some p)) :
    p < i := by
  induction h with
  | nil => cases hparent
  | cons op h ih =>
    obtain ⟨hwithin, hvalid⟩ := hvalid
    rcases getElem?_parents_cons hparent with ⟨-, hold⟩ | ⟨rfl, hnew⟩
    · exact ih hvalid hold
    · cases op with
      | add label parent => exact hwithin p (Option.some.inj hnew)
      | set j other w => cases hnew
      | remove j other => cases hnew
      | get j other => cases hnew

/-- From every scope there is a way outwards. -/
theorem Valid.exists_outward (hvalid : h.Valid) (hi : i < h.parents.length) :
    ∃ is, h.Outward i is := by
  -- by induction on the number of the scope, since that of its parent is smaller
  induction i using Nat.strongRecOn with
  | ind i ih =>
    have hcreated : h.parents[i]? = some h.parents[i] := List.getElem?_eq_getElem hi
    rcases hparent : h.parents[i] with _ | p
    · rw [hparent] at hcreated
      exact ⟨[i], .outermost hcreated⟩
    · rw [hparent] at hcreated
      have hlt := hvalid.parent_lt hcreated
      obtain ⟨is, his⟩ := ih p hlt (Nat.lt_trans hlt hi)
      exact ⟨i :: is, .inside hcreated his⟩

/-- In a forest with these parents, the lineage of a scope is its way outwards. -/
theorem Outward.lineageUpTo_eq {f : Forest ι ν}
    (hparents : ∀ j p, h.parents[j]? = some p → f.parent? j = p) (hvalid : h.Valid)
    (his : h.Outward i is) {limit : Nat} (hlimit : i < limit) : f.lineageUpTo limit i = is := by
  -- one step outwards takes one from the limit and at least one from the number of the scope
  induction limit generalizing i is with
  | zero => exact absurd hlimit (Nat.not_lt_zero i)
  | succ limit ih =>
    cases his with
    | outermost hparent => rw [lineageUpTo, hparents i none hparent]
    | @inside _ p is hparent his =>
      have hlt := hvalid.parent_lt hparent
      rw [lineageUpTo, hparents i (some p) hparent]
      show i :: f.lineageUpTo limit p = i :: is
      rw [ih his (by omega)]

theorem Outward.lookup_eq {f : Forest ι ν}
    (hparents : ∀ j p, h.parents[j]? = some p → f.parent? j = p) (hvalid : h.Valid)
    (his : h.Outward i is) (name : String) : f.lookup i name = is.findSome? (f.own? · name) := by
  rw [lookup, lookupUpTo_eq_findSome?, his.lineageUpTo_eq hparents hvalid (Nat.lt_succ_self i)]

end History

/-! ### What a forest knows of its history -/

/-- The forest has the scopes that were created and the bindings that were made last. -/
structure Reflects (f : Forest ι ν) (h : History ι ν) : Prop where
  /-- Each scope was created by one operation. -/
  size : f.size = h.parents.length
  /-- A scope has the parent that it was created with. -/
  parent : ∀ i p, h.parents[i]? = some p → f.parent? i = p
  /-- A scope binds a name to what it was told last. -/
  own : ∀ i name v, f.own? i name = some v ↔ h.Binds i name v

section reflects

variable {f : Forest ι ν} {h : History ι ν} {op : Operation ι ν} {i : Nat} {name : String}

theorem reflects_empty : Reflects (empty : Forest ι ν) [] := by
  refine ⟨rfl, ?_, ?_⟩
  · intro i p hparent
    cases hparent
  · intro i name v
    constructor
    · intro hown
      cases hown
    · rintro ⟨later, earlier, heq, -⟩
      cases later <;> cases heq

theorem Reflects.own_perform (hf : Reflects f h) (hop : op.Within f.size) (i : Nat)
    (name : String) (v : ν) :
    (f.perform op).2.own? i name = some v ↔ History.Binds (op :: h) i name v := by
  rw [History.binds_cons, ← hf.own]
  -- an operation either decides about this name in this scope, or leaves the binding as it was
  cases op with
  | add label parent =>
    show (f.add label parent).2.own? i name = some v ↔ _
    simp [Operation.Rebinds]
  | get j other =>
    show f.own? i name = some v ↔ _
    simp [Operation.Rebinds]
  | set j other w =>
    show (f.set j other w).own? i name = some v ↔ _
    have hj : j < f.size := hop
    rw [own?_set]
    by_cases hsame : j = i ∧ other = name
    · obtain ⟨rfl, rfl⟩ := hsame
      simp [Operation.Rebinds, hj]
    · have hsame' : ¬ (i = j ∧ name = other) := fun h => hsame ⟨h.1.symm, h.2.symm⟩
      have hset : Operation.set j other w ≠ (.set i name v : Operation ι ν) := by
        rintro ⟨⟩
        exact hsame ⟨rfl, rfl⟩
      simp [Operation.Rebinds, hsame, hsame', hset]
  | remove j other =>
    show (f.remove j other).2.own? i name = some v ↔ _
    rw [own?_remove]
    by_cases hsame : j = i ∧ other = name
    · obtain ⟨rfl, rfl⟩ := hsame
      simp [Operation.Rebinds]
    · have hsame' : ¬ (i = j ∧ name = other) := fun h => hsame ⟨h.1.symm, h.2.symm⟩
      simp [Operation.Rebinds, hsame, hsame']

/-- The scopes that there are have the parents they were created with, whatever is done next. -/
theorem Reflects.parent_perform (hf : Reflects f h) (op : Operation ι ν) {p : Option Nat}
    (hparent : h.parents[i]? = some p) : (f.perform op).2.parent? i = p := by
  have hi : i < f.size := by
    rw [hf.size]
    exact (List.getElem?_eq_some_iff.mp hparent).1
  rw [parent?_perform hi]
  exact hf.parent i p hparent

/-- One operation keeps the forest in step with the history. -/
theorem Reflects.perform (hf : Reflects f h) (hop : op.Within f.size) :
    Reflects (f.perform op).2 (op :: h) := by
  refine ⟨?_, ?_, hf.own_perform hop⟩
  · rw [size_perform, History.parents_cons, List.length_append, hf.size]
  · intro i p hparent
    rcases History.getElem?_parents_cons hparent with ⟨-, hold⟩ | ⟨rfl, hnew⟩
    · exact hf.parent_perform op hold
    · rw [← hf.size]
      exact parent?_perform_size hnew

/-- Every history leaves a forest that reflects it. -/
theorem History.Valid.reflects (hvalid : h.Valid) : Reflects h.forest h := by
  induction h with
  | nil => exact reflects_empty
  | cons op h ih =>
    obtain ⟨hop, hvalid⟩ := hvalid
    have hf := ih hvalid
    rw [← hf.size] at hop
    exact hf.perform hop

theorem Reflects.own_eq_none_iff (hf : Reflects f h) (i : Nat) (name : String) :
    f.own? i name = none ↔ h.Unbound i name := by
  rw [Option.eq_none_iff_forall_ne_some]
  exact forall_congr' fun v => not_congr (hf.own i name v)

end reflects

/-! ### Nearest bindings -/

section nearest

variable {f : Forest ι ν} {h : History ι ν} {op : Operation ι ν} {i : Nat} {is js : List Nat}
  {name : String} {v : ν}

theorem History.Valid.outward_unique (hvalid : h.Valid) (his : h.Outward i is)
    (hjs : h.Outward i js) : js = is := by
  have hparents := hvalid.reflects.parent
  rw [← his.lineageUpTo_eq hparents hvalid (Nat.lt_succ_self i),
    hjs.lineageUpTo_eq hparents hvalid (Nat.lt_succ_self i)]

/-- A lookup finds what the nearest scope binds that binds the name at all. -/
theorem Reflects.lookup_eq_some_iff (hf : Reflects f h) (hvalid : h.Valid) (his : h.Outward i is) :
    f.lookup i name = some v ↔
      ∃ nearer j further, is = nearer ++ j :: further ∧ h.Binds j name v ∧
        ∀ k ∈ nearer, h.Unbound k name := by
  rw [his.lookup_eq hf.parent hvalid, List.findSome?_eq_some_iff]
  simp only [hf.own, hf.own_eq_none_iff]

theorem Reflects.lookup_eq_none_iff (hf : Reflects f h) (hvalid : h.Valid) (his : h.Outward i is) :
    f.lookup i name = none ↔ ∀ j ∈ is, h.Unbound j name := by
  rw [his.lookup_eq hf.parent hvalid, List.findSome?_eq_none_iff]
  simp only [hf.own_eq_none_iff]

/-- Where the first answers of two questions differ, they differ at a place before which there are
no answers. -/
theorem exists_of_findSome?_ne {α β : Type} {p q : α → Option β} {l : List α}
    (hne : l.findSome? p ≠ l.findSome? q) :
    ∃ nearer a further, l = nearer ++ a :: further ∧ p a ≠ q a ∧ ∀ b ∈ nearer, q b = none := by
  induction l with
  | nil => exact absurd rfl hne
  | cons a l ih =>
    by_cases ha : p a = q a
    · rw [List.findSome?_cons, List.findSome?_cons, ha] at hne
      cases hq : q a with
      | some v =>
        rw [hq] at hne
        exact absurd rfl hne
      | none =>
        rw [hq] at hne
        obtain ⟨nearer, b, further, rfl, hb, hnearer⟩ := ih hne
        exact ⟨a :: nearer, b, further, rfl, hb, List.forall_mem_cons.mpr ⟨hq, hnearer⟩⟩
    · exact ⟨[], a, l, rfl, ha, List.forall_mem_nil _⟩

/-- An operation that changes what is found is about this name and a scope on the way outwards, and
no scope before that one binds the name. -/
theorem Reflects.target_of_lookup_ne (hf : Reflects f h) (hvalid : h.Valid) (his : h.Outward i is)
    (hne : (f.perform op).2.lookup i name ≠ f.lookup i name) :
    ∃ nearer j further, is = nearer ++ j :: further ∧ op.target? = some (j, name) ∧
      ∀ k ∈ nearer, h.Unbound k name := by
  -- the way outwards is the same after the operation, so only a table on it can have changed
  rw [his.lookup_eq (fun _ _ => hf.parent_perform op) hvalid, his.lookup_eq hf.parent hvalid] at hne
  obtain ⟨nearer, j, further, heq, hj, hnearer⟩ := exists_of_findSome?_ne hne
  have htarget : op.target? = some (j, name) :=
    Decidable.byContradiction fun htarget => hj (own?_perform_of_ne htarget)
  exact ⟨nearer, j, further, heq, htarget,
    fun k hk => (hf.own_eq_none_iff k name).mp (hnearer k hk)⟩

end nearest

/-- **Nearest binding, over any history.** Scopes are numbered as they are created, and from each
of them there is one way outwards. A lookup finds the value that the nearest scope on this way was
told to bind the name to, if that scope was told nothing else about the name since; it finds nothing
if there is no such scope. A removal answers in the same way for the scope alone and changes nothing
else. What a lookup finds is changed only by an operation on that name in a scope on the way, and by
none beyond a scope that binds the name. -/
theorem nearest_binding_over_histories {h : History ι ν} (hvalid : h.Valid) {i : Nat}
    (hi : i < h.parents.length) (name : String) :
    ∃ is, (∀ label parent, h.answer (.add label parent) = .created h.parents.length) ∧
      (∀ js, h.Outward i js ↔ js = is) ∧
      -- lookup
      (∀ v, h.answer (.get i name) = .found (some v) ↔
        ∃ nearer j further, is = nearer ++ j :: further ∧ h.Binds j name v ∧
          ∀ k ∈ nearer, h.Unbound k name) ∧
      (h.answer (.get i name) = .found none ↔ ∀ j ∈ is, h.Unbound j name) ∧
      -- removal
      (∀ v, h.answer (.remove i name) = .found (some v) ↔ h.Binds i name v) ∧
      (h.answer (.remove i name) = .found none ↔ h.Unbound i name) ∧
      AgreeExcept i name h.forest (History.forest (.remove i name :: h)) ∧
      -- change
      ∀ op, History.answer (op :: h) (.get i name) ≠ h.answer (.get i name) →
        ∃ nearer j further, is = nearer ++ j :: further ∧ op.target? = some (j, name) ∧
          ∀ k ∈ nearer, h.Unbound k name := by
  have hf := hvalid.reflects
  obtain ⟨is, his⟩ := hvalid.exists_outward hi
  refine ⟨is, ?_, ?_, ?_, ?_, ?_, ?_, agreeExcept_perform rfl, ?_⟩
  · intro label parent
    exact congrArg Answer.created hf.size
  · intro js
    exact ⟨hvalid.outward_unique his, fun heq => heq ▸ his⟩
  · intro v
    show Answer.found (h.forest.lookup i name) = .found (some v) ↔ _
    rw [Answer.found.injEq, hf.lookup_eq_some_iff hvalid his]
  · show Answer.found (h.forest.lookup i name) = .found none ↔ _
    rw [Answer.found.injEq, hf.lookup_eq_none_iff hvalid his]
  · intro v
    show Answer.found (h.forest.own? i name) = .found (some v) ↔ _
    rw [Answer.found.injEq, hf.own]
  · show Answer.found (h.forest.own? i name) = .found none ↔ _
    rw [Answer.found.injEq, hf.own_eq_none_iff]
  · intro op hne
    apply hf.target_of_lookup_ne hvalid his
    intro hsame
    exact hne (congrArg Answer.found hsame)

/-- Two scopes inside one that binds a name again after the first of them has bound it too. Then the
first removes its own binding. -/
def uncovering : History Unit Nat :=
  [.remove 1 "x", .set 0 "x" 3, .set 1 "x" 2, .set 0 "x" 1,
    .add () (some 0), .add () (some 0), .add () none]

/-- The outer binding is found, and with the value that it was given while it was hidden. -/
theorem removal_uncovers_outer_binding :
    uncovering.Valid ∧ 1 < uncovering.parents.length ∧
      uncovering.answer (.get 1 "x") = .found (some 3) ∧
      ∃ nearer j further, uncovering.Outward 1 (nearer ++ j :: further) ∧
        uncovering.Binds j "x" 3 ∧ ∀ k ∈ nearer, uncovering.Unbound k "x" := by
  have hvalid : uncovering.Valid := by
    simp [uncovering, History.Valid, History.parents, Operation.Within, Operation.parent?]
  have hthere : 1 < uncovering.parents.length := by decide
  have hfound : uncovering.answer (.get 1 "x") = .found (some 3) := rfl
  obtain ⟨is, -, hway, hlookup, -⟩ := nearest_binding_over_histories hvalid hthere "x"
  obtain ⟨nearer, j, further, heq, hbinds, hnearer⟩ := (hlookup 3).mp hfound
  exact ⟨hvalid, hthere, hfound, nearer, j, further, (hway _).mpr heq.symm, hbinds, hnearer⟩

end LineScript.Forest
