import LineScript.Proofs.Evaluation.CountedLoops
import LineScript.Proofs.Evaluation.Soundness
import LineScript.Proofs.Number.Indexing

/-!
# The loop over the indices of a list

`FOR i = 0 TO LEN(xs) THEN xs / i` gives the list `xs` back, for every list whose length is a
double, and the variable of the loop is the only thing that it changes.

  * `Machine.set_set`, `Machine.lookup_set_of_ne`: what is bound last counts, and other names keep
    their values.
  * `iterate_count`: the numbers of the loop are the doubles of the indices.
  * `passes_from`: from any index on, the passes give the elements from this index on.

**Key idea.** Every pass binds the same name, so the machine after all passes is the one after the
last pass alone. The list is found again in each pass because its name is another one.
-/

namespace LineScript

open Run

/-! ### Binding one name -/

namespace Machine

variable {m : Machine} {scope : ScopeId} {name other : String}

/-- What is bound last counts. -/
theorem set_set (m : Machine) (scope : ScopeId) (name : String) (v w : Value) :
    (m.set scope name v).set scope name w = m.set scope name w := by
  have htable (table : Bindings Value) : (table.set name v).set name w = table.set name w := by
    simp [Bindings.set, Bindings.remove]
  have hscopes : ((m.set scope name v).set scope name w).scopes.scopes =
      (m.set scope name w).scopes.scopes := by
    apply Array.ext_getElem?
    intro i
    by_cases hi : i = scope
    · subst hi
      rw [scopes_set_self, scopes_set_self, scopes_set_self, Option.map_map]
      congr 1
      funext s
      simp only [Function.comp_apply, htable]
    · rw [scopes_set_of_ne _ _ _ hi, scopes_set_of_ne _ _ _ hi, scopes_set_of_ne _ _ _ hi]
  show { m with scopes := _ } = { m with scopes := _ }
  congr 1
  exact congrArg Forest.mk hscopes

/-- Other names keep their values, whichever scope they are bound in. -/
theorem lookup_set_of_ne (hscope : scope < m.scopes.size) (v : Value) (hne : other ≠ name)
    (i : ScopeId) : (m.set scope name v).lookup i other = m.lookup i other := by
  show Forest.lookupUpTo _ other (i + 1) i = Forest.lookupUpTo _ other (i + 1) i
  -- the scopes that are asked are the same, and each gives the same answer
  generalize i + 1 = limit
  induction limit generalizing i with
  | zero => rfl
  | succ limit ih =>
    have hown : (m.set scope name v).scopes.own? i other = m.scopes.own? i other := by
      rw [own?_set m name v hscope, if_neg fun h => hne h.2]
    simp only [Forest.lookupUpTo, hown, parent?_set, ih]

theorem lookup_set_self (hscope : scope < m.scopes.size) (v : Value) :
    (m.set scope name v).lookup scope name = some v := by
  have hown : (m.set scope name v).scopes.own? scope name = some v := by
    rw [own?_set m name v hscope, if_pos ⟨rfl, rfl⟩]
  show Forest.lookupUpTo _ name (scope + 1) scope = some v
  simp only [Forest.lookupUpTo, hown]

/-- A name is found only from a scope that exists. -/
theorem scope_lt_of_lookup {v : Value} (h : m.lookup scope name = some v) :
    scope < m.scopes.size := by
  by_contra hge
  have hnone : m.scopes.scopes[scope]? = none := Array.getElem?_eq_none (Nat.le_of_not_lt hge)
  have hlookup : m.lookup scope name = none := by
    show Forest.lookupUpTo _ name (scope + 1) scope = none
    simp [Forest.lookupUpTo, Forest.own?, Forest.parent?, hnone]
  rw [hlookup] at h
  cases h

end Machine

/-! ### The numbers of the loop -/

/-- The numbers of the loop are the doubles of the indices. -/
theorem iterate_count {k : Nat} (hk : k < 2 ^ 53) :
    iterate (Number.ofCount 0) 1 k = Number.ofCount k := by
  induction k with
  | zero => rfl
  | succ k ih =>
    show iterate (Number.ofCount 0) 1 k + 1 = _
    rw [ih (by omega), Number.ofCount_succ hk]

/-- The loop goes on below the length and ends there. -/
theorem goesOn_count_iff {k n : Nat} (hk : k ≤ n) (hn : n < 2 ^ 53) :
    GoesOn (Number.ofCount n) 1 (iterate (Number.ofCount 0) 1 k) ↔ k < n := by
  have hup : (0 : Float) ≤ 1 := by decide
  rw [iterate_count (by omega)]
  unfold GoesOn
  rw [Number.ofCount_lt_iff (by omega) hn]
  simp [hup]

/-! ### Names and elements -/

section elements

variable {scope : ScopeId} {m : Machine}

theorem tends_name {name : String} {v : Value} (p : Position) (h : m.lookup scope name = some v) :
    Tends (fun n => eval n scope (.name name p)) m (.value v, m) := by
  have hlook : (Run.look (·.lookup scope name) : Eval (Option Value)) m = (.value (some v), m) := by
    rw [← h]
    rfl
  exact tends_eval (Tends.bind (.of_eq fun _ => hlook) (.of_eq fun _ => rfl))

theorem elementAt_count {l : List Value} {k : Nat} (hk : k < l.length) (hl : l.length < 2 ^ 53) :
    Value.elementAt l (Number.ofCount k) = .ok l[k] := by
  unfold Value.elementAt
  rw [Number.index?_ofCount (by omega), if_pos hk]
  simp [hk]

/-- The length of a list that has a name. -/
theorem tends_length {xs : String} {l : List Value} (p q r : Position)
    (hxs : m.lookup scope xs = some (.list l))
    (hlen : m.lookup scope "LEN" = some (.builtIn "LEN")) :
    Tends (fun n => eval n scope (.call (.name "LEN" p) [.name xs q] r)) m
      (.value (.number (Number.ofCount l.length)), m) := by
  refine tends_eval ((tends_name p hlen).bind ?_)
  have harguments : Tends (fun n => Eval.all (eval n) scope [.name xs q]) m
      (.value [.list l], m) :=
    (tends_name q hxs).bind (.of_eq fun _ => rfl)
  exact harguments.bind (.of_eq fun _ => rfl)

end elements

/-! ### The passes -/

section passes

variable {scope : ScopeId} {xs i : String} {b : Body} {p q r : Position} {l : List Value}
  {m : Machine}

/-- A pass for an index gives the element there, and binds the variable to the index. -/
theorem passEnds_element (hb : b.Just (.binary .div (.name xs p) (.name i q) r)) (hne : xs ≠ i)
    (hxs : m.lookup scope xs = some (.list l)) {k : Nat} (hk : k < l.length)
    (hl : l.length < 2 ^ 53) :
    PassEnds scope i b (Number.ofCount k) m
      (.value l[k], m.set scope i (.number (Number.ofCount k))) := by
  have hscope := Machine.scope_lt_of_lookup hxs
  have hlist : (m.set scope i (.number (Number.ofCount k))).lookup scope xs = some (.list l) := by
    rw [Machine.lookup_set_of_ne hscope _ hne, hxs]
  have hindex : (m.set scope i (.number (Number.ofCount k))).lookup scope i =
      some (.number (Number.ofCount k)) :=
    Machine.lookup_set_self hscope _
  refine tends_body hb (tends_eval ((tends_name p hlist).bind ((tends_name q hindex).bind ?_)))
  have helement : Value.applyBinary .div (.list l) (.number (Number.ofCount k)) = .ok l[k] :=
    elementAt_count hk hl
  refine .of_eq fun n => ?_
  rw [helement]
  rfl

/-- The machine after the passes from some index on: the variable is bound to the last index, if
there was a pass. -/
def afterPasses (scope : ScopeId) (i : String) (l rest : List Value) (m : Machine) : Machine :=
  if rest = [] then m else m.set scope i (.number (Number.ofCount (l.length - 1)))

/-- From any index on, the passes give the elements from this index on. -/
theorem passes_from (hb : b.Just (.binary .div (.name xs p) (.name i q) r)) (hne : xs ≠ i)
    (hl : l.length < 2 ^ 53) (before rest : List Value) (hsplit : l = before ++ rest)
    (hxs : m.lookup scope xs = some (.list l)) :
    Passes (PassEnds scope i b) (iterates (Number.ofCount before.length) 1 rest.length) m rest
      (afterPasses scope i l rest m) := by
  induction rest generalizing before m with
  | nil => exact .done m
  | cons v rest ih =>
    have hlength : l.length = before.length + (rest.length + 1) := by
      rw [hsplit, List.length_append, List.length_cons]
    have helement : l[before.length] = v := by simp [hsplit]
    have hpass := passEnds_element hb hne hxs (by omega : before.length < l.length) hl
    rw [helement] at hpass
    have hscope := Machine.scope_lt_of_lookup hxs
    have hlist : (m.set scope i (.number (Number.ofCount before.length))).lookup scope xs =
        some (.list l) := by
      rw [Machine.lookup_set_of_ne hscope _ hne, hxs]
    have hrest := ih (before ++ [v]) (by rw [hsplit, List.append_assoc]; rfl) hlist
    -- the last pass decides what the variable is bound to
    have hafter : afterPasses scope i l rest
        (m.set scope i (.number (Number.ofCount before.length))) =
          afterPasses scope i l (v :: rest) m := by
      unfold afterPasses
      rw [if_neg (List.cons_ne_nil v rest)]
      by_cases hlast : rest = []
      · rw [if_pos hlast, show before.length = l.length - 1 by rw [hlength, hlast]; simp]
      · rw [if_neg hlast, Machine.set_set]
    rw [List.length_append, List.length_singleton, hafter] at hrest
    rw [List.length_cons, iterates_succ, Number.ofCount_succ (by omega)]
    exact .next hpass hrest

/-- The loop with its passes. -/
theorem tends_indexing_loop (hl : l.length < 2 ^ 53) (hne : xs ≠ i)
    (hxs : m.lookup scope xs = some (.list l))
    (hlen : m.lookup scope "LEN" = some (.builtIn "LEN"))
    (hb : b.Just (.binary .div (.name xs p) (.name i q) r)) (p₀ p₁ p₂ p₃ p₄ : Position) :
    Tends (fun n => eval n scope
        (.forTo i (.number 0 p₀) (.call (.name "LEN" p₁) [.name xs p₂] p₃) none b p₄)) m
      (.value (.list l), (afterPasses scope i l l m).record (.forRan i p₄ l.length)) := by
  have hstart : Tends (fun n => eval n scope (.number 0 p₀)) m
      (.value (.number (Number.ofCount 0)), m) :=
    tends_eval (.of_eq fun _ => rfl)
  have hstep : StepEnds scope none m 1 m := ⟨rfl, rfl⟩
  rw [tends_forTo_iff hstart (tends_length p₁ p₂ p₃ hxs hlen) hstep, tends_countedRest_value_iff]
  refine ⟨l.length, l, afterPasses scope i l l m, ?_, ?_, ?_, rfl, rfl⟩
  · intro k hk
    exact (goesOn_count_iff (by omega) hl).mpr hk
  · rw [goesOn_count_iff (Nat.le_refl _) hl]
    exact Nat.lt_irrefl _
  · exact passes_from hb hne hl [] l rfl hxs

theorem own?_afterPasses (hscope : scope < m.scopes.size) (j : ScopeId) (name : String) :
    (afterPasses scope i l l m).scopes.own? j name =
      if l ≠ [] ∧ j = scope ∧ name = i then some (.number (Number.ofCount (l.length - 1)))
      else m.scopes.own? j name := by
  unfold afterPasses
  by_cases hempty : l = []
  · rw [if_pos hempty, if_neg fun h => h.1 hempty]
  · rw [if_neg hempty, m.own?_set i _ hscope]
    simp only [ne_eq, hempty, not_false_eq_true, true_and]

end passes

/-- **The loop over the indices of a list** gives the list back. Afterwards the variable is bound to
the last index in the scope of the loop, or as before if the list is empty; no other binding of any
scope has changed, and no scope was added. What the loop prints is nothing. -/
theorem indexing_loop_is_identity {scope : ScopeId} {xs i : String} {l : List Value} {m : Machine}
    {b : Body} {p q r : Position} (hl : l.length < 2 ^ 53) (hne : xs ≠ i)
    (hxs : m.lookup scope xs = some (.list l))
    (hlen : m.lookup scope "LEN" = some (.builtIn "LEN"))
    (hb : b.Just (.binary .div (.name xs p) (.name i q) r)) (p₀ p₁ p₂ p₃ p₄ : Position) :
    ∃ m', Tends (fun n => eval n scope
        (.forTo i (.number 0 p₀) (.call (.name "LEN" p₁) [.name xs p₂] p₃) none b p₄)) m
        (.value (.list l), m') ∧
      (∀ j name, m'.scopes.own? j name =
        if l ≠ [] ∧ j = scope ∧ name = i then some (.number (Number.ofCount (l.length - 1)))
        else m.scopes.own? j name) ∧
      m'.scopes.size = m.scopes.size ∧
      (∀ j, m'.scopes.label? j = m.scopes.label? j ∧ m'.scopes.parent? j = m.scopes.parent? j) ∧
      m'.log = .forRan i p₄ l.length :: m.log ∧ m'.clock = m.clock := by
  have hscope := Machine.scope_lt_of_lookup hxs
  refine ⟨_, tends_indexing_loop hl hne hxs hlen hb p₀ p₁ p₂ p₃ p₄, ?_⟩
  refine ⟨own?_afterPasses hscope, ?_⟩
  -- binding the variable changes nothing but bindings
  unfold afterPasses
  by_cases hempty : l = []
  · rw [if_pos hempty]
    exact ⟨rfl, fun j => ⟨rfl, rfl⟩, rfl, rfl⟩
  · rw [if_neg hempty]
    refine ⟨m.size_set .., ?_, rfl, rfl⟩
    intro j
    exact ⟨m.label?_set .., m.parent?_set ..⟩

/-- A list of three elements, bound in the scope of the program, in a loop with a block. -/
theorem mixed_list_is_copied :
    let p : Position := .start
    let l : List Value := [.text "a", .list [.number 2], .null]
    let b := Body.block (.list [.binary .div (.name "xs" p) (.name "i" p) p] p)
    let m := (Machine.global ⟨0, 0⟩).set Machine.root "xs" (.list l)
    l.length < 2 ^ 53 ∧ m.lookup Machine.root "xs" = some (.list l) ∧
      m.lookup Machine.root "LEN" = some (.builtIn "LEN") ∧
      ∃ m', Tends (fun n => eval n Machine.root
          (.forTo "i" (.number 0 p) (.call (.name "LEN" p) [.name "xs" p] p) none b p)) m
          (.value (.list l), m') ∧
        m'.scopes.own? Machine.root "i" = some (.number 2) ∧
        m'.scopes.own? Machine.root "xs" = some (.list l) := by
  intro p l b m
  have hl : l.length < 2 ^ 53 := by decide
  have hxs : m.lookup Machine.root "xs" = some (.list l) := rfl
  have hlen : m.lookup Machine.root "LEN" = some (.builtIn "LEN") := rfl
  refine ⟨hl, hxs, hlen, ?_⟩
  obtain ⟨m', hends, hown, _⟩ :=
    indexing_loop_is_identity hl (by decide : "xs" ≠ "i") hxs hlen (.block p) p p p p p
  refine ⟨m', hends, ?_, ?_⟩
  · rw [hown]
    rfl
  · rw [hown]
    rfl

end LineScript
