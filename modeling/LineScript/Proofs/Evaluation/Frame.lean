import LineScript.Eval

/-!
# What an evaluation can change

An evaluation changes the scope it runs in, and no other scope that existed before it. In its own
scope it removes nothing, and it binds only names that the expression itself binds.

  * `Expr.nodes` lists the nodes of a tree that are evaluated in the scope of the tree: all nodes,
    except those inside function bodies. `Expr.target?` is the name that a node binds.
  * `Machine.Extends m m'`: every scope of `m` is in `m'` as it was.
  * `Machine.Confined scope may m m'`: the same for every scope but `scope`, and in `scope` only
    names that satisfy `may` have changed.
  * `Confines scope may run`: the computation `run` is confined in this way, however it ends.

**Key idea.** A call binds its parameters in a scope of its own, which is newer than every scope
that existed at the call. So a confined evaluation of the body, seen from the caller, is an
extension: whatever the function does, the caller's scopes stay as they were.
-/

namespace LineScript

/-! ### Nodes and targets -/

mutual

/-- The nodes of a tree that are evaluated in its scope, the tree itself first. The body of a
function is evaluated in a scope of its own, so its nodes are left out. -/
def Expr.nodes (e : Expr) : List Expr :=
  e :: match e with
    | .number _ _ | .text _ _ | .name _ _ | .function _ _ _ _ => []
    | .list elements _ => Expr.nodesOfAll elements
    | .assign _ value _ => value.nodes
    | .binary _ left right _ => left.nodes ++ right.nodes
    | .unary _ operand _ => operand.nodes
    | .ifThen condition body rest _ => condition.nodes ++ (body.nodes ++ rest.nodes)
    | .forTo _ start stop step body _ =>
      start.nodes ++ (stop.nodes ++ (Expr.nodesOfOption step ++ body.nodes))
    | .whileDo condition body _ => condition.nodes ++ body.nodes
    | .call callee arguments _ => callee.nodes ++ Expr.nodesOfAll arguments
termination_by structural e

/-- The nodes of several trees, one tree after the other. -/
def Expr.nodesOfAll : List Expr → List Expr
  | [] => []
  | e :: es => e.nodes ++ Expr.nodesOfAll es
termination_by structural es => es

/-- The nodes of a tree that may be missing. -/
def Expr.nodesOfOption : Option Expr → List Expr
  | none => []
  | some e => e.nodes
termination_by structural e => e

/-- The nodes of a body. -/
def Body.nodes : Body → List Expr
  | .inline e => e.nodes
  | .block e => e.nodes
termination_by structural b => b

/-- The nodes of the rest of a conditional. -/
def Chain.nodes : Chain → List Expr
  | .done => []
  | .otherwise body => body.nodes
  | .elif condition body rest => condition.nodes ++ (body.nodes ++ rest.nodes)
termination_by structural c => c

end

/-- The name that a node binds: that of a `VAR`, a `FOR` or a function with a name. -/
def Expr.target? : Expr → Option String
  | .assign x _ _ => some x
  | .forTo x _ _ _ _ _ => some x
  | .function x _ _ _ => x
  | _ => none

/-- Some node in the list binds the name. -/
def Targets (nodes : List Expr) (name : String) : Prop :=
  ∃ node ∈ nodes, node.target? = some name

theorem Targets.mono {ns ns' : List Expr} (h : ns ⊆ ns') {name : String} (ht : Targets ns name) :
    Targets ns' name := by
  obtain ⟨node, hmem, htarget⟩ := ht
  exact ⟨node, h hmem, htarget⟩

theorem Targets.self {e : Expr} {name : String} (h : e.target? = some name) :
    Targets e.nodes name := by
  refine ⟨e, ?_, h⟩
  rw [Expr.nodes.eq_def]
  exact List.mem_cons_self

theorem Body.nodes_eq (b : Body) : b.nodes = b.expr.nodes := by
  cases b <;> rfl

/-! ### Extensions -/

namespace Machine

/-- Every scope of `m` is a scope of `m'` with the same label, parent and bindings. -/
structure Extends (m m' : Machine) : Prop where
  /-- No scope has disappeared. -/
  size_le : m.scopes.size ≤ m'.scopes.size
  /-- The scopes that were there are as they were. -/
  same : ∀ i < m.scopes.size, m'.scopes.scopes[i]? = m.scopes.scopes[i]?

theorem Extends.refl (m : Machine) : Extends m m :=
  ⟨Nat.le_refl _, fun _ _ => rfl⟩

/-- The log and the clock are no scopes. -/
theorem Extends.of_scopes_eq {m m' : Machine} (h : m'.scopes = m.scopes) : Extends m m' := by
  refine ⟨Nat.le_of_eq (by rw [h]), ?_⟩
  intro i _
  rw [h]

theorem Extends.trans {m₁ m₂ m₃ : Machine} (h : Extends m₁ m₂) (h' : Extends m₂ m₃) :
    Extends m₁ m₃ := by
  refine ⟨Nat.le_trans h.size_le h'.size_le, ?_⟩
  intro i hi
  rw [h'.same i (Nat.lt_of_lt_of_le hi h.size_le), h.same i hi]

/-! ### Confinement -/

/-- Of the scopes of `m`, only `scope` may differ in `m'`. It has the same label and parent, all the
names it had are still bound, and a name that does not satisfy `may` has the value it had. -/
structure Confined (scope : ScopeId) (may : String → Prop) (m m' : Machine) : Prop where
  /-- No scope has disappeared. -/
  size_le : m.scopes.size ≤ m'.scopes.size
  /-- All other scopes are as they were. -/
  others : ∀ i < m.scopes.size, i ≠ scope → m'.scopes.scopes[i]? = m.scopes.scopes[i]?
  /-- The scope has the label it had. -/
  label : m'.scopes.label? scope = m.scopes.label? scope
  /-- The scope has the parent it had. -/
  parent : m'.scopes.parent? scope = m.scopes.parent? scope
  /-- No name is removed from the scope. -/
  kept : ∀ name, m.scopes.own? scope name ≠ none → m'.scopes.own? scope name ≠ none
  /-- A name that must not change has the value it had. -/
  elsewhere : ∀ name, ¬ may name → m'.scopes.own? scope name = m.scopes.own? scope name

variable {scope : ScopeId} {may may' : String → Prop} {m m' m₁ m₂ m₃ : Machine}

theorem Extends.confined (h : Extends m m') (hscope : scope < m.scopes.size) :
    Confined scope may m m' := by
  have hsame : m'.scopes.scopes[scope]? = m.scopes.scopes[scope]? := h.same scope hscope
  refine ⟨h.size_le, fun i hi _ => h.same i hi, ?_, ?_, ?_, ?_⟩
  · simp only [Forest.label?, hsame]
  · simp only [Forest.parent?, hsame]
  · intro name hname
    simpa only [Forest.own?, hsame] using hname
  · intro name _
    simp only [Forest.own?, hsame]

theorem Confined.trans (h : Confined scope may m₁ m₂) (h' : Confined scope may m₂ m₃) :
    Confined scope may m₁ m₃ := by
  refine ⟨Nat.le_trans h.size_le h'.size_le, ?_, h'.label.trans h.label,
    h'.parent.trans h.parent, fun name hname => h'.kept name (h.kept name hname), ?_⟩
  · intro i hi hne
    rw [h'.others i (Nat.lt_of_lt_of_le hi h.size_le) hne, h.others i hi hne]
  · intro name hname
    rw [h'.elsewhere name hname, h.elsewhere name hname]

theorem Confined.mono (h : Confined scope may m m') (hsub : ∀ name, may name → may' name) :
    Confined scope may' m m' :=
  ⟨h.size_le, h.others, h.label, h.parent, h.kept,
    fun name hname => h.elsewhere name fun hmay => hname (hsub name hmay)⟩

/-- What happens in a scope that did not exist before leaves the older scopes as they were. -/
theorem Confined.extends_of_new (h : Confined scope may m₁ m₂) (hext : Extends m m₁)
    (hnew : m.scopes.size ≤ scope) : Extends m m₂ := by
  refine ⟨Nat.le_trans hext.size_le h.size_le, ?_⟩
  intro i hi
  have hne : i ≠ scope := by omega
  rw [h.others i (Nat.lt_of_lt_of_le hi hext.size_le) hne, hext.same i hi]

/-! ### Binding names and entering scopes -/

@[simp] theorem size_set (m : Machine) (scope : ScopeId) (name : String) (v : Value) :
    (m.set scope name v).scopes.size = m.scopes.size :=
  m.scopes.size_set scope name v

theorem scopes_set_of_ne (m : Machine) {scope i : ScopeId} (name : String) (v : Value)
    (h : i ≠ scope) : (m.set scope name v).scopes.scopes[i]? = m.scopes.scopes[i]? := by
  have hne : ¬ scope = i := fun h' => h h'.symm
  simp [set, Forest.set, Array.getElem?_modify, hne]

theorem scopes_set_self (m : Machine) (scope : ScopeId) (name : String) (v : Value) :
    (m.set scope name v).scopes.scopes[scope]? =
      m.scopes.scopes[scope]?.map fun s => { s with bindings := s.bindings.set name v } := by
  simp [set, Forest.set, Array.getElem?_modify]

/-- Binding a name touches that name alone. -/
theorem confined_set (m : Machine) {name : String} (v : Value) (hmay : may name) :
    Confined scope may m (m.set scope name v) := by
  refine ⟨Nat.le_of_eq (size_set ..).symm, fun i _ hne => scopes_set_of_ne m name v hne,
    m.scopes.label?_set scope scope name v, m.scopes.parent?_set scope scope name v, ?_, ?_⟩
  -- names that are bound stay bound
  · intro other hother
    show (m.scopes.set scope name v).own? scope other ≠ none
    rw [Forest.own?_set]
    split
    · exact Option.some_ne_none v
    · exact hother
  -- names that may not be bound keep their values
  · intro other hother
    show (m.scopes.set scope name v).own? scope other = _
    rw [Forest.own?_set, if_neg]
    rintro ⟨-, -, rfl⟩
    exact hother hmay

/-- Binding several names in one scope touches no other scope. -/
theorem confined_setAll (m : Machine) (scope : ScopeId) (bindings : List (String × Value))
    (hscope : scope < m.scopes.size) :
    Confined scope (fun _ => True) m (m.setAll scope bindings) := by
  unfold setAll
  induction bindings generalizing m with
  | nil => exact (Extends.refl m).confined hscope
  | cons binding bindings ih =>
    rw [List.foldl_cons]
    have hfirst : Confined scope (fun _ => True) m (m.set scope binding.1 binding.2) :=
      confined_set m binding.2 trivial
    exact hfirst.trans (ih _ (by rw [size_set]; exact hscope))

theorem extends_record (m : Machine) (event : Event) : Extends m (m.record event) :=
  .of_scopes_eq rfl

/-- Entries in the log are no scopes. -/
theorem scopes_recordAll (events : List Event) (m : Machine) :
    (events.foldl record m).scopes = m.scopes := by
  induction events generalizing m with
  | nil => rfl
  | cons event events ih => exact ih (m.record event)

theorem extends_enter (m : Machine) (parent : ScopeId) (name : String) (entry : Position) :
    Extends m (m.enter parent name entry).2 := by
  refine ⟨?_, ?_⟩
  · simp [enter, Forest.add, Forest.size]
  · intro i hi
    have hne : i ≠ m.scopes.scopes.size := Nat.ne_of_lt hi
    simp [enter, Forest.add, Array.getElem?_push, hne]

@[simp] theorem size_enter (m : Machine) (parent : ScopeId) (name : String) (entry : Position) :
    (m.enter parent name entry).2.scopes.size = m.scopes.size + 1 :=
  m.scopes.size_add ⟨name, some entry⟩ (some parent)

/-- The scope that is created for a call is the last one and holds nothing yet. -/
theorem scopes_enter_new (m : Machine) (parent : ScopeId) (name : String) (entry : Position) :
    (m.enter parent name entry).2.scopes.scopes[m.scopes.size]? =
      some ⟨⟨name, some entry⟩, some parent, []⟩ := by
  rw [Machine.enter, Forest.add, Forest.size, Array.getElem?_push, if_pos rfl]

end Machine

/-! ### Confined computations -/

/-- Run in a machine that has the scope, the computation leaves a machine confined to it, whether it
ends with a value, with a fault or at the bound. -/
def Confines {α : Type} (scope : ScopeId) (may : String → Prop) (run : Eval α) : Prop :=
  ∀ m : Machine, scope < m.scopes.size → m.Confined scope may (run m).2

/-- The computation leaves all scopes as they were. -/
def Grows {α : Type} (run : Eval α) : Prop :=
  ∀ m : Machine, m.Extends (run m).2

section computations

variable {α β : Type} {scope : ScopeId} {may : String → Prop}

theorem Grows.confines {run : Eval α} (h : Grows run) : Confines scope may run :=
  fun m hscope => (h m).confined hscope

theorem grows_pure (a : α) : Grows (pure a : Eval α) :=
  fun m => .refl m

theorem grows_raise (p : Position) (cause : Cause) : Grows (Eval.raise scope p cause : Eval α) :=
  fun m => .refl m

theorem grows_exhausted : Grows (Run.exhausted : Eval α) :=
  fun m => .refl m

theorem grows_look (f : Machine → α) : Grows (Run.look f : Eval α) :=
  fun m => .refl m

theorem grows_lift (p : Position) (r : Except Cause α) : Grows (Eval.lift scope p r) := by
  cases r with
  | ok a => exact grows_pure a
  | error cause => exact grows_raise p cause

theorem grows_record (event : Event) : Grows (Eval.record event) :=
  fun m => m.extends_record event

theorem Grows.bind {run : Eval α} {next : α → Eval β} (h : Grows run) (h' : ∀ a, Grows (next a)) :
    Grows (run >>= next) := by
  intro m
  exact Run.bind_snd (h m) fun a => (h m).trans (h' a _)

theorem Confines.bind {run : Eval α} {next : α → Eval β} (h : Confines scope may run)
    (h' : ∀ a, Confines scope may (next a)) : Confines scope may (run >>= next) := by
  intro m hscope
  have hrun := h m hscope
  exact Run.bind_snd hrun fun a =>
    hrun.trans (h' a _ (Nat.lt_of_lt_of_le hscope hrun.size_le))

theorem Confines.mono {may' : String → Prop} {run : Eval α} (h : Confines scope may run)
    (hsub : ∀ name, may name → may' name) : Confines scope may' run :=
  fun m hscope => (h m hscope).mono hsub

theorem confines_bindName {name : String} (v : Value) (hmay : may name) :
    Confines scope may (Eval.bindName scope name v) :=
  fun m _ => m.confined_set v hmay

end computations

/-! ### The evaluator

Each part of the evaluator is confined if the evaluator it uses for subexpressions is. -/

/-- In every scope, an expression binds only its own targets. -/
def Evaluator.Framed (ev : Evaluator) : Prop :=
  ∀ scope e, Confines scope (Targets e.nodes) (ev scope e)

section evaluator

variable {ev : Evaluator} {scope : ScopeId} {may : String → Prop}

theorem Evaluator.Framed.confines (hev : ev.Framed) {e : Expr} {nodes : List Expr}
    (hsub : e.nodes ⊆ nodes) : Confines scope (Targets nodes) (ev scope e) :=
  (hev scope e).mono fun _ h => h.mono hsub

theorem confines_all (hev : ev.Framed) (es : List Expr) {nodes : List Expr}
    (hsub : Expr.nodesOfAll es ⊆ nodes) :
    Confines scope (Targets nodes) (Eval.all ev scope es) := by
  induction es with
  | nil => exact (grows_pure _).confines
  | cons e es ih =>
    rw [Expr.nodesOfAll, List.append_subset] at hsub
    refine (hev.confines hsub.1).bind fun v => ?_
    exact (ih hsub.2).bind fun vs => (grows_pure _).confines

theorem confines_condition (hev : ev.Framed) {e : Expr} {nodes : List Expr}
    (hsub : e.nodes ⊆ nodes) : Confines scope (Targets nodes) (Eval.condition ev scope e) :=
  (hev.confines hsub).bind fun _ => (grows_lift _ _).confines

theorem confines_body (hev : ev.Framed) {b : Body} {nodes : List Expr} (hsub : b.nodes ⊆ nodes) :
    Confines scope (Targets nodes) (Eval.body ev scope b) := by
  rw [Body.nodes_eq] at hsub
  exact (hev.confines hsub).bind fun _ => (grows_pure _).confines

theorem confines_chain (hev : ev.Framed) (c : Chain) {nodes : List Expr} (hsub : c.nodes ⊆ nodes) :
    Confines scope (Targets nodes) (Eval.chain ev scope c) := by
  cases c with
  | done => exact (grows_pure _).confines
  | otherwise b => exact confines_body hev hsub
  | elif e b rest =>
    rw [Chain.nodes, List.append_subset, List.append_subset] at hsub
    refine (confines_condition hev hsub.1).bind fun holds => ?_
    cases holds with
    | true => exact confines_body hev hsub.2.1
    | false => exact confines_chain hev rest hsub.2.2

theorem grows_variable (name : String) (p : Position) : Grows (Eval.variable_ scope name p) := by
  refine (grows_look _).bind fun found => ?_
  cases found with
  | some v => exact grows_pure v
  | none => exact grows_raise p _

theorem confines_bound (hev : ev.Framed) {e : Expr} (operation : String) {nodes : List Expr}
    (hsub : e.nodes ⊆ nodes) : Confines scope (Targets nodes) (Eval.bound ev scope e operation) :=
  (hev.confines hsub).bind fun _ => (grows_lift _ _).confines

theorem confines_countFrom (hev : ev.Framed) {var : String} {b : Body} {nodes : List Expr}
    (hvar : Targets nodes var) (hsub : b.nodes ⊆ nodes) (stop step : Float) (n : Nat) (i : Float)
    (done : List Value) :
    Confines scope (Targets nodes) (Eval.countFrom ev scope var b stop step n i done) := by
  induction n generalizing i done with
  | zero => exact grows_exhausted.confines
  | succ n ih =>
    rw [Eval.countFrom]
    split
    · refine (confines_bindName _ hvar).bind fun _ => ?_
      exact (confines_body hev hsub).bind fun v => ih _ _
    · exact (grows_pure _).confines

theorem confines_forTo (hev : ev.Framed) (n : Nat) (var : String) (start stop : Expr)
    (step : Option Expr) (b : Body) (p : Position) :
    Confines scope (Targets (Expr.forTo var start stop step b p).nodes)
      (Eval.forTo ev n scope var start stop step b p) := by
  have hvar : Targets (Expr.forTo var start stop step b p).nodes var := .self rfl
  have hsub : start.nodes ++ (stop.nodes ++ (Expr.nodesOfOption step ++ b.nodes)) ⊆
      (Expr.forTo var start stop step b p).nodes := List.subset_cons_self _ _
  rw [List.append_subset, List.append_subset, List.append_subset] at hsub
  obtain ⟨hstart, hstop, hstep, hbody⟩ := hsub
  refine (confines_bound hev _ hstart).bind fun first => ?_
  refine (confines_bound hev _ hstop).bind fun last => ?_
  -- with the step known, what remains are the iterations and an entry in the log
  have hrest : ∀ by_ : Float,
      Confines scope (Targets (Expr.forTo var start stop step b p).nodes) (do
      let values ← Eval.countFrom ev scope var b last by_ n first []
      Eval.record (.forRan var p values.length)
      pure (Value.list values)) := by
    intro by_
    refine (confines_countFrom hev hvar hbody _ _ _ _ _).bind fun values => ?_
    exact ((grows_record _).bind fun _ => grows_pure _).confines
  cases step with
  | some e => exact (confines_bound hev _ hstep).bind hrest
  | none => exact (grows_pure _).confines.bind hrest

theorem confines_repeatWhile (hev : ev.Framed) {c : Expr} {b : Body} {nodes : List Expr}
    (hc : c.nodes ⊆ nodes) (hb : b.nodes ⊆ nodes) (n : Nat) (done : List Value) :
    Confines scope (Targets nodes) (Eval.repeatWhile ev scope c b n done) := by
  induction n generalizing done with
  | zero => exact grows_exhausted.confines
  | succ n ih =>
    refine (confines_condition hev hc).bind fun holds => ?_
    cases holds with
    | true => exact (confines_body hev hb).bind fun v => ih _
    | false => exact (grows_pure _).confines

theorem confines_define (name : Option String) (params : List String) (b : Body) (p : Position) :
    Confines scope (Targets (Expr.function name params b p).nodes)
      (Eval.define scope name params b) := by
  cases name with
  | some name => exact (confines_bindName _ (.self rfl)).bind fun _ => (grows_pure _).confines
  | none => exact (grows_pure _).confines

/-- A call leaves all scopes as they were: the parameters are bound, and the body is evaluated, in a
scope that is newer than all of them. -/
theorem grows_callFunction (hev : ev.Framed) (caller : ScopeId) (f : Closure)
    (arguments : List Value) (p : Position) :
    Grows (Eval.callFunction ev caller f arguments p) := by
  refine (grows_lift _ _).bind fun _ => (grows_record _).bind fun _ => ?_
  intro m
  let entered := m.enter f.scope f.displayName p
  -- the scope of the call is the newest one, so what is bound in it is bound in no old scope
  have henter : m.Extends entered.2 := m.extends_enter ..
  have hscope : m.scopes.size < entered.2.scopes.size := by simp [entered]
  have hparams := entered.2.confined_setAll m.scopes.size (f.params.zip arguments) hscope
  have hbody := confines_body hev (List.Subset.refl f.body.nodes) _
    (Nat.lt_of_lt_of_le hscope hparams.size_le)
  exact hbody.extends_of_new (hparams.extends_of_new henter (Nat.le_refl _)) (Nat.le_refl _)

theorem grows_callBuiltin (caller : ScopeId) (name : String) (arguments : List Value)
    (p : Position) : Grows (Eval.callBuiltin caller name arguments p) := by
  have hevents (events : List Event) :
      ∀ m : Machine, m.Extends (events.foldl Machine.record m) := by
    induction events with
    | nil => exact Machine.Extends.refl
    | cons event events ih => exact fun m => (m.extends_record event).trans (ih _)
  unfold Eval.callBuiltin
  cases Builtin.ofName? name with
  | none => exact grows_raise p _
  | some b =>
    refine (grows_lift _ _).bind fun _ => (grows_look _).bind fun reply => ?_
    exact Grows.bind (fun m => hevents reply.2 m) fun _ => grows_lift _ _

theorem grows_call (hev : ev.Framed) (callee : Value) (arguments : List Value) (p : Position) :
    Grows (Eval.call ev scope callee arguments p) := by
  cases callee with
  | function f => exact grows_callFunction hev scope f arguments p
  | builtIn name => exact grows_callBuiltin scope name arguments p
  | number _ => exact grows_raise p _
  | text _ => exact grows_raise p _
  | list _ => exact grows_raise p _

end evaluator

/-! ### The frame law -/

/-- One level of evaluation is framed if the level below is. -/
theorem evalOver_framed {ev : Evaluator} (hev : ev.Framed) (n : Nat) :
    Evaluator.Framed (evalOver ev n) := by
  intro scope e
  -- in each case the nodes of the parts are nodes of the whole
  cases e with
  | number value p => exact (grows_pure _).confines
  | text value p => exact (grows_pure _).confines
  | name name p => exact (grows_variable name p).confines
  | list elements p =>
    have hsub : Expr.nodesOfAll elements ⊆ (Expr.list elements p).nodes :=
      List.subset_cons_self _ _
    exact (confines_all hev elements hsub).bind fun _ => (grows_pure _).confines
  | assign name value p =>
    have hsub : value.nodes ⊆ (Expr.assign name value p).nodes := List.subset_cons_self _ _
    refine (hev.confines hsub).bind fun v => ?_
    exact (confines_bindName v (.self rfl)).bind fun _ => (grows_pure _).confines
  | binary op left right p =>
    have hsub : left.nodes ++ right.nodes ⊆ (Expr.binary op left right p).nodes :=
      List.subset_cons_self _ _
    rw [List.append_subset] at hsub
    refine (hev.confines hsub.1).bind fun l => ?_
    exact (hev.confines hsub.2).bind fun r => (grows_lift _ _).confines
  | unary op operand p =>
    have hsub : operand.nodes ⊆ (Expr.unary op operand p).nodes := List.subset_cons_self _ _
    exact (hev.confines hsub).bind fun v => (grows_lift _ _).confines
  | ifThen condition body rest p =>
    have hsub :
        (Chain.elif condition body rest).nodes ⊆ (Expr.ifThen condition body rest p).nodes :=
      List.subset_cons_self _ _
    exact confines_chain hev (.elif condition body rest) hsub
  | forTo var start stop step body p => exact confines_forTo hev n var start stop step body p
  | whileDo condition body p =>
    have hsub : condition.nodes ++ body.nodes ⊆ (Expr.whileDo condition body p).nodes :=
      List.subset_cons_self _ _
    rw [List.append_subset] at hsub
    refine (confines_repeatWhile hev hsub.1 hsub.2 n []).bind fun values => ?_
    exact ((grows_record _).bind fun _ => grows_pure _).confines
  | function name params body p => exact confines_define name params body p
  | call callee arguments p =>
    have hsub : callee.nodes ++ Expr.nodesOfAll arguments ⊆ (Expr.call callee arguments p).nodes :=
      List.subset_cons_self _ _
    rw [List.append_subset] at hsub
    refine (hev.confines hsub.1).bind fun f => ?_
    refine (confines_all hev arguments hsub.2).bind fun vs => ?_
    exact (grows_call hev f vs p).confines

theorem eval_framed (n : Nat) : Evaluator.Framed (eval n) := by
  induction n with
  | zero => exact fun scope e => grows_exhausted.confines
  | succ n ih => exact evalOver_framed ih n

/-- **Frame law.** An evaluation, however it ends, leaves every scope other than its own as it was;
in its own scope no name is removed, and a name that is new or has another value is the target of a
node of the expression outside function bodies. A call leaves all scopes as they were. -/
theorem eval_changes_only_targets (n : Nat) (scope : ScopeId) (e : Expr) (m : Machine)
    (hscope : scope < m.scopes.size) :
    (∀ i < m.scopes.size, i ≠ scope →
      (eval n scope e m).2.scopes.scopes[i]? = m.scopes.scopes[i]?) ∧
    (∀ name, m.scopes.own? scope name ≠ none →
      (eval n scope e m).2.scopes.own? scope name ≠ none) ∧
    (∀ name, (eval n scope e m).2.scopes.own? scope name ≠ m.scopes.own? scope name →
      ∃ node ∈ e.nodes, node.target? = some name) ∧
    (∀ (caller : ScopeId) (f : Closure) (arguments : List Value) (p : Position),
      ∀ i < m.scopes.size,
        (Eval.callFunction (eval n) caller f arguments p m).2.scopes.scopes[i]? =
          m.scopes.scopes[i]?) := by
  have h := eval_framed n scope e m hscope
  refine ⟨h.others, h.kept, ?_, ?_⟩
  -- a name that is no target keeps its value
  · intro name hne
    exact Classical.not_not.mp fun hnot => hne (h.elsewhere name hnot)
  · intro caller f arguments p
    exact (grows_callFunction (eval_framed n) caller f arguments p m).same

/-- A function that binds `y` and then fails is defined and called: the run ends with a fault, and
`y` is not bound in the scope of the program. -/
theorem failing_call_leaves_program_scope :
    let p : Position := .start
    let body := Expr.list [.assign "y" (.name "x" p) p, .name "missing" p] p
    let program := Expr.list [.function (some "f") ["x"] (.block body) p,
      .call (.name "f" p) [.text "argument" p] p] p
    let m := Machine.global ⟨0, 0⟩
    Machine.root < m.scopes.size ∧
      (eval 9 Machine.root program m).1 = .error ⟨.undefinedVariable "missing", p, 1⟩ ∧
      (eval 9 Machine.root program m).2.scopes.own? Machine.root "y" = none := by
  intro p body program m
  have hscope : Machine.root < m.scopes.size := by decide
  refine ⟨hscope, rfl, ?_⟩
  have hframe := (eval_changes_only_targets 9 Machine.root program m hscope).2.2.1 "y"
  have hbefore : m.scopes.own? Machine.root "y" = none := by decide
  rw [hbefore] at hframe
  refine Classical.not_not.mp fun hne => ?_
  obtain ⟨node, hmem, htarget⟩ := hframe hne
  simp only [program, Expr.nodes, Expr.nodesOfAll, List.append_nil, List.nil_append,
    List.cons_append, List.mem_cons, List.not_mem_nil, or_false] at hmem
  rcases hmem with rfl | rfl | rfl | rfl | rfl <;> simp [Expr.target?] at htarget

end LineScript
