import LineScript.Proofs.Evaluation.Renaming

/-!
# Sound machines

A machine is sound if nothing in it points outside: its scopes form one tree below the scope of the
program, functions close over scopes that exist, and a built-in function is one of those there are.
Evaluation keeps a machine sound, whatever it evaluates and however it ends.

  * `Value.Sound size v`: the functions in the value close over scopes below `size`, and the built-in
    functions in it exist.
  * `Scopes.Rooted scopes`: the first scope is that of the program, every other one was entered from
    somewhere and lies inside an older one.
  * `Machine.Sound m`: the scopes are rooted and only sound values are bound in them.
  * `Fault.Sound size f`: the scope of the fault exists, and the cause is not that a built-in
    function is unknown.
  * `Safe k good run`: on sound machines with at least `k` scopes the computation keeps the machine
    sound, its result is good for the machine that it leaves, and its fault is sound.

**Key idea.** Scopes never disappear, so a value that is sound in one machine is sound in all later
ones. What is known about a value is therefore stated for a number of scopes and not for a machine.
-/

namespace LineScript

open Run

/-! ### Values -/

/-- The built-in function is the value or stands in it, at any depth of lists. -/
inductive Value.HoldsBuiltIn (name : String) : Value → Prop
  | self : HoldsBuiltIn name (.builtIn name)
  | element {v : Value} {vs : List Value} (hmem : v ∈ vs) (h : HoldsBuiltIn name v) :
    HoldsBuiltIn name (.list vs)

/-- There is a built-in function of this name. -/
def Builtin.Listed (name : String) : Prop :=
  ∃ b ∈ Builtin.all, b.name = name

theorem Builtin.Listed.ofName? {name : String} (h : Builtin.Listed name) :
    ∃ b, Builtin.ofName? name = some b := by
  obtain ⟨b, hmem, hname⟩ := h
  unfold Builtin.ofName?
  have hsome : (Builtin.all.find? (·.name == name)).isSome := by
    rw [List.find?_isSome]
    exact ⟨b, hmem, beq_iff_eq.mpr hname⟩
  exact Option.isSome_iff_exists.mp hsome

/-- Nothing in the value points outside a store of `size` scopes. -/
structure Value.Sound (size : Nat) (v : Value) : Prop where
  /-- Functions close over scopes of the store. -/
  closures : ∀ f, v.Holds f → f.scope < size
  /-- Built-in functions exist. -/
  builtIns : ∀ name, v.HoldsBuiltIn name → Builtin.Listed name

namespace Value

variable {size size' : Nat} {v : Value} {vs : List Value}

theorem Sound.mono (h : v.Sound size) (hle : size ≤ size') : v.Sound size' :=
  ⟨fun f hf => Nat.lt_of_lt_of_le (h.closures f hf) hle, h.builtIns⟩

theorem sound_number (x : Float) : (number x).Sound size :=
  ⟨nofun, nofun⟩

theorem sound_text (s : String) : (text s).Sound size :=
  ⟨nofun, nofun⟩

theorem sound_function {f : Closure} (h : f.scope < size) : (function f).Sound size := by
  refine ⟨?_, nofun⟩
  intro g hg
  cases hg
  exact h

theorem sound_builtIn {name : String} (h : Builtin.Listed name) : (builtIn name).Sound size := by
  refine ⟨nofun, ?_⟩
  intro other hother
  cases hother
  exact h

theorem sound_list_iff : (list vs).Sound size ↔ ∀ v ∈ vs, v.Sound size := by
  constructor
  · intro h v hv
    exact ⟨fun f hf => h.closures f (.element hv hf),
      fun name hname => h.builtIns name (.element hv hname)⟩
  · intro h
    refine ⟨?_, ?_⟩
    · intro f hf
      cases hf with
      | element hmem hf => exact (h _ hmem).closures f hf
    · intro name hname
      cases hname with
      | element hmem hname => exact (h _ hmem).builtIns name hname

/-- Operators and built-in functions make neither functions nor built-in functions. -/
theorem uniform_sound (size : Nat) : Uniform (fun v v' : Value => v' = v ∧ v.Sound size) :=
  Uniform.of_property sound_number sound_text fun _ => sound_list_iff

end Value

/-! ### Causes -/

/-- The cause is not that a built-in function is unknown. -/
def Cause.Ordinary (cause : Cause) : Prop :=
  ∀ name, cause ≠ .unknownBuiltIn name

/-- If the result is a cause, it is an ordinary one. -/
def FailsOrdinarily {α : Type} (r : Except Cause α) : Prop :=
  ∀ cause, r = .error cause → cause.Ordinary

section causes

variable {α : Type}

theorem failsOrdinarily_ok (a : α) : FailsOrdinarily (.ok a) := nofun

theorem failsOrdinarily_error {cause : Cause} (h : cause.Ordinary) :
    FailsOrdinarily (.error cause : Except Cause α) := by
  intro other hother
  cases hother
  exact h

theorem failsOrdinarily_refuse (op : BinaryOperator) (v w : Value) :
    FailsOrdinarily (.error (Value.refuse op v w) : Except Cause α) :=
  failsOrdinarily_error nofun

theorem failsOrdinarily_condition (v : Value) : FailsOrdinarily v.condition := by
  unfold Value.condition
  split
  · exact failsOrdinarily_ok _
  · exact failsOrdinarily_error nofun

theorem failsOrdinarily_toNumber (v : Value) (operation : String) :
    FailsOrdinarily (v.toNumber operation) := by
  unfold Value.toNumber
  split
  · exact failsOrdinarily_ok _
  · exact failsOrdinarily_error nofun

theorem failsOrdinarily_checkArity (function : String) (expected found : Nat) :
    FailsOrdinarily (checkArity function expected found) := by
  unfold checkArity
  split
  · exact failsOrdinarily_ok _
  · split
    · exact failsOrdinarily_error nofun
    · exact failsOrdinarily_error nofun

theorem failsOrdinarily_removeAt (vs : List Value) (index : Float) :
    FailsOrdinarily (Value.removeAt vs index) := by
  unfold Value.removeAt
  split
  · exact failsOrdinarily_ok _
  · exact failsOrdinarily_error nofun

theorem failsOrdinarily_elementAt (vs : List Value) (index : Float) :
    FailsOrdinarily (Value.elementAt vs index) := by
  unfold Value.elementAt
  split
  · exact failsOrdinarily_ok _
  · exact failsOrdinarily_error nofun

theorem failsOrdinarily_arithmetic (op : BinaryOperator) (v w : Value) :
    FailsOrdinarily (Value.arithmetic op v w) := by
  unfold Value.arithmetic
  split
  · split
    · exact failsOrdinarily_ok _
    · exact failsOrdinarily_ok _
    · exact failsOrdinarily_ok _
    · split
      · exact failsOrdinarily_error nofun
      · exact failsOrdinarily_ok _
    · exact failsOrdinarily_ok _
    · exact failsOrdinarily_refuse op _ _
  · exact failsOrdinarily_refuse op _ _

theorem failsOrdinarily_compareBy (op : BinaryOperator) (v w : Value) (order : Option Ordering) :
    FailsOrdinarily (Value.compareBy op v w order) := by
  unfold Value.compareBy
  split
  · exact failsOrdinarily_ok _
  · exact failsOrdinarily_refuse op v w

theorem failsOrdinarily_comparison (op : BinaryOperator) (v w : Value) :
    FailsOrdinarily (Value.comparison op v w) := by
  unfold Value.comparison
  split
  · exact failsOrdinarily_compareBy op _ _ _
  · exact failsOrdinarily_compareBy op _ _ _
  · exact failsOrdinarily_refuse op _ _

theorem failsOrdinarily_logic (op : BinaryOperator) (v w : Value) :
    FailsOrdinarily (Value.logic op v w) := by
  unfold Value.logic
  split
  · split
    · split
      · exact failsOrdinarily_ok _
      · exact failsOrdinarily_ok _
      · exact failsOrdinarily_refuse op v w
    · exact failsOrdinarily_refuse op v w
  · exact failsOrdinarily_refuse op v w

/-- An operator that fails has not looked for a built-in function. -/
theorem failsOrdinarily_applyBinary (op : BinaryOperator) (v w : Value) :
    FailsOrdinarily (v.applyBinary op w) := by
  have harithmetic := failsOrdinarily_arithmetic op v w
  cases op with
  | add =>
    simp only [Value.applyBinary]
    split
    · exact failsOrdinarily_ok _
    · exact failsOrdinarily_ok _
    · exact harithmetic
  | sub =>
    simp only [Value.applyBinary]
    split
    · exact failsOrdinarily_removeAt _ _
    · exact harithmetic
  | div =>
    simp only [Value.applyBinary]
    split
    · exact failsOrdinarily_elementAt _ _
    · exact harithmetic
  | mul | pow => exact harithmetic
  | equal | notEqual | less | greater | lessEqual | greaterEqual =>
    exact failsOrdinarily_comparison _ v w
  | and | or => exact failsOrdinarily_logic _ v w

theorem failsOrdinarily_applyUnary (op : UnaryOperator) (v : Value) :
    FailsOrdinarily (v.applyUnary op) := by
  unfold Value.applyUnary
  split
  · exact failsOrdinarily_ok _
  · exact failsOrdinarily_ok _
  · split
    · exact failsOrdinarily_ok _
    · exact failsOrdinarily_error nofun
  · exact failsOrdinarily_error nofun

theorem failsOrdinarily_builtin (b : Builtin) (clock : Instant) (vs : List Value) :
    FailsOrdinarily (b.apply clock vs).1 := by
  cases b with
  | len =>
    show FailsOrdinarily (Builtin.length vs.head?)
    unfold Builtin.length
    split
    · exact failsOrdinarily_ok _
    · exact failsOrdinarily_ok _
    · exact failsOrdinarily_error nofun
  | print | now | version | help => exact failsOrdinarily_ok _

end causes

/-- The scope of the fault exists in a store of `size` scopes, and its cause is an ordinary one. -/
structure Fault.Sound (size : Nat) (f : Fault) : Prop where
  /-- The scope exists. -/
  scope : f.scope < size
  /-- No built-in function is unknown. -/
  cause : f.cause.Ordinary

/-! ### Machines -/

/-- The scopes form one tree below that of the program. -/
structure Scopes.Rooted (scopes : Scopes) : Prop where
  /-- The first scope is that of the program, which was not entered from anywhere. -/
  root : scopes.label? Machine.root = some ⟨Machine.programName, none⟩
  /-- The scope of the program is outermost. -/
  outermost : scopes.parent? Machine.root = none
  /-- Every other scope lies inside an older one. -/
  inner : ∀ i < scopes.size, i ≠ Machine.root → ∃ p, scopes.parent? i = some p ∧ p < i
  /-- Every other scope was entered from somewhere. -/
  entered : ∀ i < scopes.size, i ≠ Machine.root →
    ∃ name entry, scopes.label? i = some ⟨name, some entry⟩

/-- The scopes are rooted, and only sound values are bound. -/
structure Machine.Sound (m : Machine) : Prop where
  /-- The scopes form one tree. -/
  rooted : m.scopes.Rooted
  /-- What is bound is sound. -/
  bound : ∀ i name v, m.scopes.own? i name = some v → v.Sound m.scopes.size

namespace Machine

variable {m m' : Machine}

/-- The log and the clock do not matter. -/
theorem Sound.of_scopes_eq (h : m.Sound) (heq : m'.scopes = m.scopes) : m'.Sound := by
  constructor
  · rw [heq]
    exact h.rooted
  · rw [heq]
    exact h.bound

theorem Sound.lookup (h : m.Sound) {scope : ScopeId} {name : String} {v : Value}
    (hv : m.lookup scope name = some v) : v.Sound m.scopes.size := by
  rw [Machine.lookup, Forest.lookup, Forest.lookupUpTo_eq_findSome?] at hv
  obtain ⟨i, -, hown⟩ := List.exists_of_findSome?_eq_some hv
  exact h.bound i name v hown

theorem label?_set (m : Machine) (scope : ScopeId) (name : String) (v : Value) (i : ScopeId) :
    (m.set scope name v).scopes.label? i = m.scopes.label? i :=
  m.scopes.label?_set scope i name v

theorem parent?_set (m : Machine) (scope : ScopeId) (name : String) (v : Value) (i : ScopeId) :
    (m.set scope name v).scopes.parent? i = m.scopes.parent? i :=
  m.scopes.parent?_set scope i name v

/-- What is bound after a binding was bound before, or is the new value. -/
theorem own?_set_cases (m : Machine) (scope : ScopeId) (name : String) (v : Value) {i : ScopeId}
    {other : String} {w : Value} (h : (m.set scope name v).scopes.own? i other = some w) :
    w = v ∨ m.scopes.own? i other = some w := by
  rw [Machine.set, Forest.own?_set] at h
  split at h
  · exact .inl (Option.some.inj h).symm
  · exact .inr h

theorem Sound.set (h : m.Sound) (scope : ScopeId) (name : String) {v : Value}
    (hv : v.Sound m.scopes.size) : (m.set scope name v).Sound := by
  constructor
  · constructor
    · rw [label?_set]
      exact h.rooted.root
    · rw [parent?_set]
      exact h.rooted.outermost
    · intro i hi hne
      rw [size_set] at hi
      rw [parent?_set]
      exact h.rooted.inner i hi hne
    · intro i hi hne
      rw [size_set] at hi
      rw [label?_set]
      exact h.rooted.entered i hi hne
  · intro i other w hw
    rw [size_set]
    rcases own?_set_cases m scope name v hw with rfl | hold
    · exact hv
    · exact h.bound i other w hold

@[simp] theorem size_setAll (m : Machine) (scope : ScopeId) (bindings : List (String × Value)) :
    (m.setAll scope bindings).scopes.size = m.scopes.size := by
  induction bindings generalizing m with
  | nil => rfl
  | cons binding bindings ih =>
    show ((m.set scope binding.1 binding.2).setAll scope bindings).scopes.size = m.scopes.size
    rw [ih, size_set]

theorem Sound.setAll (h : m.Sound) (scope : ScopeId) (bindings : List (String × Value))
    (hvs : ∀ binding ∈ bindings, binding.2.Sound m.scopes.size) :
    (m.setAll scope bindings).Sound := by
  induction bindings generalizing m with
  | nil => exact h
  | cons binding bindings ih =>
    obtain ⟨hv, hvs⟩ := List.forall_mem_cons.mp hvs
    apply ih (h.set scope binding.1 hv)
    rw [size_set]
    exact hvs

/-- A scope that is created inside an existing one, for a call. -/
theorem Sound.enter (h : m.Sound) {parent : ScopeId} (hparent : parent < m.scopes.size)
    (name : String) (entry : Position) : (m.enter parent name entry).2.Sound := by
  have hext := m.extends_enter parent name entry
  have hsize := m.size_enter parent name entry
  have hnew := m.scopes_enter_new parent name entry
  have hroot : Machine.root < m.scopes.size := Nat.lt_of_le_of_lt (Nat.zero_le _) hparent
  constructor
  · constructor
    · rw [Forest.label?, hext.same _ hroot]
      exact h.rooted.root
    · rw [Forest.parent?, hext.same _ hroot]
      exact h.rooted.outermost
    · intro i hi hne
      rw [Forest.parent?]
      by_cases hold : i < m.scopes.size
      · rw [hext.same i hold]
        exact h.rooted.inner i hold hne
      · obtain rfl : i = m.scopes.size := by omega
        rw [hnew]
        exact ⟨parent, rfl, hparent⟩
    · intro i hi hne
      rw [Forest.label?]
      by_cases hold : i < m.scopes.size
      · rw [hext.same i hold]
        exact h.rooted.entered i hold hne
      · obtain rfl : i = m.scopes.size := by omega
        rw [hnew]
        exact ⟨name, entry, rfl⟩
  · intro i other w hw
    rw [Machine.enter, Forest.own?_add] at hw
    rw [hsize]
    exact (h.bound i other w hw).mono (Nat.le_succ _)

/-- The machine on which a program starts is sound. -/
theorem sound_global (clock : Instant) : (global clock).Sound := by
  have hroot : ((empty clock).addRoot programName).2.Sound := by
    constructor
    · refine ⟨rfl, rfl, ?_, ?_⟩
      · intro i hi hne
        exact absurd (Nat.lt_one_iff.mp hi) hne
      · intro i hi hne
        exact absurd (Nat.lt_one_iff.mp hi) hne
    · intro i name v hv
      rw [Machine.addRoot, Forest.own?_add] at hv
      cases hv
  have hglobals : (((empty clock).addRoot programName).2.setAll 0 globals).Sound := by
    apply hroot.setAll
    intro binding hmem
    rcases List.mem_append.mp hmem with hmem | hmem
    -- the constants are numbers, the rest are the built-in functions there are
    · simp only [List.mem_cons, List.not_mem_nil, or_false] at hmem
      rcases hmem with rfl | rfl | rfl
      · exact Value.sound_number _
      · exact Value.sound_number _
      · exact Value.sound_number _
    · obtain ⟨b, hb, rfl⟩ := List.mem_map.mp hmem
      exact Value.sound_builtIn ⟨b, hb, rfl⟩
  exact hglobals.of_scopes_eq rfl

end Machine

/-! ### Safe computations -/

/-- What a computation that was started on a sound machine leaves behind. -/
structure EndsSound {α : Type} (good : Nat → α → Prop) (m : Machine)
    (reply : Outcome Fault α × Machine) : Prop where
  /-- No scope has disappeared. -/
  size_le : m.scopes.size ≤ reply.2.scopes.size
  /-- The machine is sound. -/
  sound : reply.2.Sound
  /-- A result is good for the scopes there are now. -/
  value : ∀ a, reply.1 = .value a → good reply.2.scopes.size a
  /-- A fault is sound for the scopes there are now. -/
  fault : ∀ f, reply.1 = .error f → f.Sound reply.2.scopes.size

/-- On sound machines with at least `k` scopes, the computation keeps the machine sound. -/
def Safe {α : Type} (k : Nat) (good : Nat → α → Prop) (run : Eval α) : Prop :=
  ∀ m : Machine, m.Sound → k ≤ m.scopes.size → EndsSound good m (run m)

/-- Any result will do. -/
abbrev Anything {α : Type} : Nat → α → Prop := fun _ _ => True

/-- All of the values are sound. -/
abbrev AllSound (size : Nat) (vs : List Value) : Prop := ∀ v ∈ vs, v.Sound size

theorem AllSound.mono {size size' : Nat} {vs : List Value} (h : AllSound size vs)
    (hle : size ≤ size') : AllSound size' vs :=
  fun v hv => (h v hv).mono hle

section computations

variable {α β : Type} {k : Nat} {good : Nat → α → Prop} {good' : Nat → β → Prop} {scope : ScopeId}

theorem safe_pure {a : α} (h : ∀ size, k ≤ size → good size a) : Safe k good (pure a : Eval α) := by
  intro m hm hk
  refine ⟨Nat.le_refl _, hm, ?_, nofun⟩
  intro b hb
  cases hb
  exact h _ hk

theorem safe_sound {v : Value} (h : v.Sound k) :
    Safe k (fun size v => v.Sound size) (pure v : Eval Value) :=
  safe_pure fun _ hle => h.mono hle

theorem safe_exhausted : Safe k good (exhausted : Eval α) :=
  fun _ hm _ => ⟨Nat.le_refl _, hm, nofun, nofun⟩

theorem safe_raise (hscope : scope < k) (p : Position) {cause : Cause} (h : cause.Ordinary) :
    Safe k good (Eval.raise scope p cause : Eval α) := by
  intro m hm hk
  refine ⟨Nat.le_refl _, hm, nofun, ?_⟩
  intro f hf
  cases hf
  exact ⟨Nat.lt_of_lt_of_le hscope hk, h⟩

theorem safe_lift (hscope : scope < k) (p : Position) {r : Except Cause α}
    (hfails : FailsOrdinarily r) (h : ∀ a, r = .ok a → ∀ size, k ≤ size → good size a) :
    Safe k good (Eval.lift scope p r) := by
  cases r with
  | ok a => exact safe_pure (h a rfl)
  | error cause => exact safe_raise hscope p (hfails cause rfl)

theorem safe_lift_any (hscope : scope < k) (p : Position) {r : Except Cause α}
    (hfails : FailsOrdinarily r) : Safe k Anything (Eval.lift scope p r) :=
  safe_lift hscope p hfails fun _ _ _ _ => trivial

theorem safe_modify {f : Machine → Machine} (hsize : ∀ m, (f m).scopes.size = m.scopes.size)
    (h : ∀ m, m.Sound → k ≤ m.scopes.size → (f m).Sound) :
    Safe k Anything (Run.modify f : Eval Unit) := by
  intro m hm hk
  exact ⟨Nat.le_of_eq (hsize m).symm, h m hm hk, fun _ _ => trivial, nofun⟩

/-- What comes after the first computation can rely on the scopes that this one left. -/
theorem Safe.bind {run : Eval α} {next : α → Eval β} (h : Safe k good run)
    (hnext : ∀ size, k ≤ size → ∀ a, good size a → Safe size good' (next a)) :
    Safe k good' (run >>= next) := by
  intro m hm hk
  have hfirst := h m hm hk
  rw [Run.bind_apply]
  generalize run m = reply at hfirst
  obtain ⟨a | fault | _, m₁⟩ := reply
  · have hle : k ≤ m₁.scopes.size := Nat.le_trans hk hfirst.size_le
    have hlast := hnext m₁.scopes.size hle a (hfirst.value a rfl) m₁ hfirst.sound (Nat.le_refl _)
    exact ⟨Nat.le_trans hfirst.size_le hlast.size_le, hlast.sound, hlast.value, hlast.fault⟩
  · refine ⟨hfirst.size_le, hfirst.sound, nofun, ?_⟩
    intro f hf
    cases hf
    exact hfirst.fault fault rfl
  · exact ⟨hfirst.size_le, hfirst.sound, nofun, nofun⟩

theorem safe_record (event : Event) : Safe k Anything (Eval.record event) :=
  safe_modify (fun _ => rfl) fun _ hm _ => hm.of_scopes_eq rfl

theorem safe_bindName (name : String) {v : Value} (hv : v.Sound k) :
    Safe k Anything (Eval.bindName scope name v) :=
  safe_modify (fun _ => Machine.size_set ..) fun _ hm hk => hm.set scope name (hv.mono hk)

/-- The scope of a call is a new one inside that of the function. -/
theorem safe_enter (hscope : scope < k) (name : String) (p : Position) (params : List String)
    {vs : List Value} (hvs : AllSound k vs) :
    Safe k (fun size scope => scope < size) (Eval.enter scope name p (params.zip vs)) := by
  intro m hm hk
  have hparent : scope < m.scopes.size := Nat.lt_of_lt_of_le hscope hk
  have hentered := hm.enter hparent name p
  have hsize := m.size_enter scope name p
  -- the parameters are bound to the arguments
  have hsound : ((m.enter scope name p).2.setAll m.scopes.size (params.zip vs)).Sound := by
    apply hentered.setAll
    intro binding hmem
    have hv : binding.2 ∈ vs := (List.of_mem_zip hmem).2
    apply (hvs binding.2 hv).mono
    omega
  have hle : m.scopes.size <
      ((m.enter scope name p).2.setAll m.scopes.size (params.zip vs)).scopes.size := by
    rw [Machine.size_setAll]
    omega
  refine ⟨Nat.le_of_lt hle, hsound, ?_, nofun⟩
  intro entered hentered
  cases hentered
  exact hle

end computations

/-! ### The evaluator

Each part of the evaluator is safe if the evaluator it uses for subexpressions is. -/

/-- In every scope that exists, every expression is evaluated safely, to a sound value. -/
def Evaluator.Safe (ev : Evaluator) : Prop :=
  ∀ k scope e, scope < k → LineScript.Safe k (fun size v => v.Sound size) (ev scope e)

section evaluator

variable {ev : Evaluator} {k : Nat} {scope : ScopeId}

theorem safe_all (hev : ev.Safe) (hscope : scope < k) (es : List Expr) :
    Safe k AllSound (Eval.all ev scope es) := by
  induction es generalizing k with
  | nil => exact safe_pure fun _ _ => List.forall_mem_nil _
  | cons e es ih =>
    apply (hev k scope e hscope).bind
    intro size hle v hv
    apply (ih (Nat.lt_of_lt_of_le hscope hle)).bind
    intro size' hle' vs hvs
    apply safe_pure
    intro size'' hle''
    exact List.forall_mem_cons.mpr ⟨hv.mono (Nat.le_trans hle' hle''), AllSound.mono hvs hle''⟩

theorem safe_condition (hev : ev.Safe) (hscope : scope < k) (e : Expr) :
    Safe k Anything (Eval.condition ev scope e) := by
  apply (hev k scope e hscope).bind
  intro size hle v _
  exact safe_lift_any (Nat.lt_of_lt_of_le hscope hle) _ (failsOrdinarily_condition v)

theorem safe_bound (hev : ev.Safe) (hscope : scope < k) (e : Expr) (operation : String) :
    Safe k Anything (Eval.bound ev scope e operation) := by
  apply (hev k scope e hscope).bind
  intro size hle v _
  exact safe_lift_any (Nat.lt_of_lt_of_le hscope hle) _ (failsOrdinarily_toNumber v operation)

theorem safe_body (hev : ev.Safe) (hscope : scope < k) (b : Body) :
    Safe k (fun size v => v.Sound size) (Eval.body ev scope b) := by
  apply (hev k scope b.expr hscope).bind
  intro size hle v hv
  cases b with
  | inline e => exact safe_sound hv
  | block e => exact safe_sound ((Value.uniform_sound size).yield ⟨rfl, hv⟩ e e).2

theorem safe_chain (hev : ev.Safe) : ∀ (c : Chain) {k : Nat}, scope < k →
    Safe k (fun size v => v.Sound size) (Eval.chain ev scope c)
  | .done, _, _ => safe_sound (Value.sound_number _)
  | .otherwise b, _, hscope => safe_body hev hscope b
  | .elif e b rest, _, hscope => by
    apply (safe_condition hev hscope e).bind
    intro size hle holds _
    have hscope' : scope < size := Nat.lt_of_lt_of_le hscope hle
    cases holds with
    | true => exact safe_body hev hscope' b
    | false => exact safe_chain hev rest hscope'
termination_by structural c => c

theorem safe_variable (hscope : scope < k) (name : String) (p : Position) :
    Safe k (fun size v => v.Sound size) (Eval.variable_ scope name p) := by
  have hlook : Safe k (fun size found => ∀ v, found = some v → Value.Sound size v)
      (Run.look (·.lookup scope name) : Eval _) := by
    intro m hm _
    refine ⟨Nat.le_refl _, hm, ?_, nofun⟩
    intro found hfound v hv
    cases hfound
    exact hm.lookup hv
  apply hlook.bind
  intro size hle found hfound
  cases found with
  | some v => exact safe_sound (hfound v rfl)
  | none => exact safe_raise (Nat.lt_of_lt_of_le hscope hle) p nofun

theorem safe_countFrom (hev : ev.Safe) (hscope : scope < k) (var : String) (b : Body)
    (stop step : Float) (n : Nat) (i : Float) {done : List Value} (hdone : AllSound k done) :
    Safe k AllSound (Eval.countFrom ev scope var b stop step n i done) := by
  induction n generalizing k i done with
  | zero => exact safe_exhausted
  | succ n ih =>
    rw [Eval.countFrom]
    split
    · apply (safe_bindName var (Value.sound_number i)).bind
      intro size hle _ _
      have hscope' : scope < size := Nat.lt_of_lt_of_le hscope hle
      apply (safe_body hev hscope' b).bind
      intro size' hle' v hv
      apply ih (Nat.lt_of_lt_of_le hscope' hle')
      exact List.forall_mem_cons.mpr ⟨hv, hdone.mono (Nat.le_trans hle hle')⟩
    · apply safe_pure
      intro size hle v hv
      exact (hdone v (List.mem_reverse.mp hv)).mono hle

/-- The values of a loop become a list, after an entry in the log. -/
theorem safe_recorded (event : List Value → Event) {vs : List Value} (hvs : AllSound k vs) :
    Safe k (fun size v => v.Sound size) (do
      Eval.record (event vs)
      pure (Value.list vs)) := by
  apply (safe_record _).bind
  intro size hle _ _
  exact safe_sound (Value.sound_list_iff.mpr (hvs.mono hle))

theorem safe_forTo (hev : ev.Safe) (hscope : scope < k) (n : Nat) (var : String) (start stop : Expr)
    (step : Option Expr) (b : Body) (p : Position) :
    Safe k (fun size v => v.Sound size) (Eval.forTo ev n scope var start stop step b p) := by
  apply (safe_bound hev hscope start _).bind
  intro size hle first _
  have hscope₁ : scope < size := Nat.lt_of_lt_of_le hscope hle
  apply (safe_bound hev hscope₁ stop _).bind
  intro size₂ hle₂ last _
  have hscope₂ : scope < size₂ := Nat.lt_of_lt_of_le hscope₁ hle₂
  -- with the step known, what remains are the iterations and an entry in the log
  have hrest : ∀ size₃, size₂ ≤ size₃ → ∀ by_ : Float, True →
      Safe size₃ (fun size v => v.Sound size) (do
        let values ← Eval.countFrom ev scope var b last by_ n first []
        Eval.record (.forRan var p values.length)
        pure (Value.list values)) := by
    intro size₃ hle₃ by_ _
    have hscope₃ : scope < size₃ := Nat.lt_of_lt_of_le hscope₂ hle₃
    apply (safe_countFrom hev hscope₃ var b last by_ n first (List.forall_mem_nil _)).bind
    intro _ _ vs hvs
    exact safe_recorded (fun vs => .forRan var p vs.length) hvs
  cases step with
  | none => exact (safe_pure fun _ _ => trivial).bind hrest
  | some e => exact (safe_bound hev hscope₂ e _).bind hrest

theorem safe_repeatWhile (hev : ev.Safe) (hscope : scope < k) (c : Expr) (b : Body) (n : Nat)
    {done : List Value} (hdone : AllSound k done) :
    Safe k AllSound (Eval.repeatWhile ev scope c b n done) := by
  induction n generalizing k done with
  | zero => exact safe_exhausted
  | succ n ih =>
    apply (safe_condition hev hscope c).bind
    intro size hle holds _
    have hscope' : scope < size := Nat.lt_of_lt_of_le hscope hle
    cases holds with
    | true =>
      apply (safe_body hev hscope' b).bind
      intro size' hle' v hv
      apply ih (Nat.lt_of_lt_of_le hscope' hle')
      exact List.forall_mem_cons.mpr ⟨hv, hdone.mono (Nat.le_trans hle hle')⟩
    | false =>
      apply safe_pure
      intro size' hle' v hv
      exact (hdone v (List.mem_reverse.mp hv)).mono (Nat.le_trans hle hle')

/-- A function closes over the scope of its definition, which exists. -/
theorem safe_define (hscope : scope < k) (name : Option String) (params : List String) (b : Body) :
    Safe k (fun size v => v.Sound size) (Eval.define scope name params b) := by
  have hf : (Value.function ⟨name, params, b, scope⟩).Sound k := Value.sound_function hscope
  cases name with
  | none => exact safe_sound hf
  | some name =>
    apply (safe_bindName name hf).bind
    intro size hle _ _
    exact safe_sound (hf.mono hle)

theorem safe_callFunction (hev : ev.Safe) (hscope : scope < k) {f : Closure} (hf : f.scope < k)
    {vs : List Value} (hvs : AllSound k vs) (p : Position) :
    Safe k (fun size v => v.Sound size) (Eval.callFunction ev scope f vs p) := by
  apply (safe_lift_any hscope p (failsOrdinarily_checkArity _ _ _)).bind
  intro size hle _ _
  apply (safe_record _).bind
  intro size₂ hle₂ _ _
  have hk : k ≤ size₂ := Nat.le_trans hle hle₂
  apply (safe_enter (Nat.lt_of_lt_of_le hf hk) _ p f.params (hvs.mono hk)).bind
  intro _ _ entered hentered
  exact safe_body hev hentered f.body

theorem safe_callBuiltin (hscope : scope < k) {name : String} (hname : Builtin.Listed name)
    {vs : List Value} (hvs : AllSound k vs) (p : Position) :
    Safe k (fun size v => v.Sound size) (Eval.callBuiltin scope name vs p) := by
  obtain ⟨b, hb⟩ := hname.ofName?
  unfold Eval.callBuiltin
  rw [hb]
  apply (safe_lift_any hscope p (failsOrdinarily_checkArity _ _ _)).bind
  intro size hle _ _
  -- the reply of a built-in function is made of its arguments
  have hlook : Safe size (fun size r => FailsOrdinarily r.1 ∧ ∀ v, r.1 = .ok v → Value.Sound size v)
      (Run.look fun m => b.apply m.clock vs : Eval _) := by
    intro m hm hsize
    refine ⟨Nat.le_refl _, hm, ?_, nofun⟩
    intro r hr
    cases hr
    refine ⟨failsOrdinarily_builtin b m.clock vs, ?_⟩
    have hvs' : AllSound m.scopes.size vs := hvs.mono (Nat.le_trans hle hsize)
    exact ((Value.uniform_sound m.scopes.size).builtin b m.clock
      (forall₂_property_iff.mpr ⟨rfl, hvs'⟩)).1.property
  apply hlook.bind
  intro size₂ hle₂ r hr
  have hrecord : Safe size₂ Anything
      (Run.modify fun m => r.2.foldl Machine.record m : Eval Unit) := by
    apply safe_modify
    · intro m
      rw [Machine.scopes_recordAll]
    · intro m hm _
      exact hm.of_scopes_eq (Machine.scopes_recordAll _ _)
  apply hrecord.bind
  intro size₃ hle₃ _ _
  have hscope₃ : scope < size₃ :=
    Nat.lt_of_lt_of_le hscope (Nat.le_trans hle (Nat.le_trans hle₂ hle₃))
  apply safe_lift hscope₃ p hr.1
  intro v hv size₄ hle₄
  exact (hr.2 v hv).mono (Nat.le_trans hle₃ hle₄)

theorem safe_call (hev : ev.Safe) (hscope : scope < k) {f : Value} (hf : f.Sound k)
    {vs : List Value} (hvs : AllSound k vs) (p : Position) :
    Safe k (fun size v => v.Sound size) (Eval.call ev scope f vs p) := by
  cases f with
  | function f => exact safe_callFunction hev hscope (hf.closures f .self) hvs p
  | builtIn name => exact safe_callBuiltin hscope (hf.builtIns name .self) hvs p
  | number | text | list => exact safe_raise hscope p nofun

theorem evalOver_safe (hev : ev.Safe) (n : Nat) : Evaluator.Safe (evalOver ev n) := by
  intro k scope e hscope
  cases e with
  | number value p => exact safe_sound (Value.sound_number value)
  | text value p => exact safe_sound (Value.sound_text value)
  | list es p =>
    apply (safe_all hev hscope es).bind
    intro _ _ vs hvs
    exact safe_sound (Value.sound_list_iff.mpr hvs)
  | name name p => exact safe_variable hscope name p
  | assign name value p =>
    apply (hev k scope value hscope).bind
    intro _ _ v hv
    apply (safe_bindName name hv).bind
    intro _ hle _ _
    exact safe_sound (hv.mono hle)
  | binary op l r p =>
    apply (hev k scope l hscope).bind
    intro size hle left hleft
    have hscope' : scope < size := Nat.lt_of_lt_of_le hscope hle
    apply (hev size scope r hscope').bind
    intro size' hle' right hright
    apply safe_lift (Nat.lt_of_lt_of_le hscope' hle') p (failsOrdinarily_applyBinary op left right)
    intro v hv size'' hle''
    have hresult := (Value.uniform_sound size').applyBinary ⟨rfl, hleft.mono hle'⟩ ⟨rfl, hright⟩ op
    exact (hresult.property v hv).mono hle''
  | unary op operand p =>
    apply (hev k scope operand hscope).bind
    intro size hle v hv
    apply safe_lift (Nat.lt_of_lt_of_le hscope hle) p (failsOrdinarily_applyUnary op v)
    intro w hw size' hle'
    exact (((Value.uniform_sound size).applyUnary ⟨rfl, hv⟩ op).property w hw).mono hle'
  | ifThen c b rest p => exact safe_chain hev (.elif c b rest) hscope
  | forTo var start stop step b p => exact safe_forTo hev hscope n var start stop step b p
  | whileDo c b p =>
    apply (safe_repeatWhile hev hscope c b n (List.forall_mem_nil _)).bind
    intro _ _ vs hvs
    exact safe_recorded (fun vs => .whileRan vs.length) hvs
  | function name params b p => exact safe_define hscope name params b
  | call callee es p =>
    apply (hev k scope callee hscope).bind
    intro size hle f hf
    have hscope' : scope < size := Nat.lt_of_lt_of_le hscope hle
    apply (safe_all hev hscope' es).bind
    intro size' hle' vs hvs
    exact safe_call hev (Nat.lt_of_lt_of_le hscope' hle') (hf.mono hle') hvs p

end evaluator

/-- **Soundness.** Evaluation in a scope that exists keeps the machine sound. -/
theorem eval_safe (n : Nat) : Evaluator.Safe (eval n) := by
  induction n with
  | zero => exact fun _ _ _ _ => safe_exhausted
  | succ n ih => exact evalOver_safe ih n

end LineScript
