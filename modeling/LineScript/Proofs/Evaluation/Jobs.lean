import Mathlib.Logic.Relation
import LineScript.Proofs.Evaluation.Frame

/-!
# What an evaluation starts

To evaluate an expression is to evaluate other expressions on the way: operands, conditions, the body
of a loop time and again, the body of a function that is called. Each of these is a job of its own.

  * `Job` is the evaluation of an expression in a scope, on the machine as it is at that moment.
  * `Job.Starts j k`: carrying out the job `j` starts the job `k` directly. `Job.During` also allows
    other jobs in between.
  * `Job.Calls j f k`: the job `j` calls the function `f`, and `k` is the evaluation of its body.
  * `Starting` says what a part of the evaluator starts. `starts…` follow the evaluator part by part.
  * `Accounts scope nodes S run`: a fault of the part `run` comes from a job that it starts, or it is
    its own and lies at one of the nodes; and a fault of a job that it starts is its fault.

**Key idea.** Which jobs are started depends on how the jobs before them ended. So what is started is
defined alongside the evaluator, with the evaluator's own parts for what ran before.
-/

namespace LineScript

open Run

/-! ### Jobs -/

/-- The evaluation of an expression. -/
structure Job where
  /-- The bound on nested evaluations and iterations. -/
  bound : Nat
  /-- The scope in which the expression is evaluated. -/
  scope : ScopeId
  /-- The expression. -/
  expr : Expr
  /-- The machine on which the evaluation starts. -/
  machine : Machine

/-- How the job ends. -/
def Job.reply (j : Job) : Outcome Fault Value × Machine :=
  eval j.bound j.scope j.expr j.machine

/-- The jobs that a part of the evaluator starts, depending on the machine. -/
abbrev Starting := Machine → Job → Prop

namespace Starting

/-- No job. -/
def nothing : Starting :=
  fun _ _ => False

/-- The evaluation of one expression. -/
def one (n : Nat) (scope : ScopeId) (e : Expr) : Starting :=
  fun m j => j = ⟨n, scope, e, m⟩

/-- The jobs of a computation, and if it has a result, those of what comes after it. -/
def andThen {α : Type} (S : Starting) (run : Eval α) (next : α → Starting) : Starting :=
  fun m j => S m j ∨ ∃ a m₁, run m = (.value a, m₁) ∧ next a m₁ j

end Starting

open Starting

/-! ### Parts of the evaluator -/

/-- Expressions are evaluated from left to right, up to the first that gives no value. -/
def startsAll (n : Nat) (scope : ScopeId) : List Expr → Starting
  | [] => nothing
  | e :: es => (one n scope e).andThen (eval n scope e) fun _ => startsAll n scope es

/-- Conditions are evaluated up to the first that holds, then its body. -/
def startsChain (n : Nat) (scope : ScopeId) : Chain → Starting
  | .done => nothing
  | .otherwise b => one n scope b.expr
  | .elif c b rest =>
    (one n scope c).andThen (Eval.condition (eval n) scope c) fun holds =>
      if holds then one n scope b.expr else startsChain n scope rest

/-- The body of a counted loop is evaluated once for each number in the range. -/
def startsCount (n : Nat) (scope : ScopeId) (var : String) (b : Body) (stop step : Float) :
    Nat → Float → Starting
  | 0, _ => nothing
  | k + 1, i =>
    if Eval.inRange stop step i then
      nothing.andThen (Eval.bindName scope var (.number i)) fun _ =>
        (one n scope b.expr).andThen (Eval.body (eval n) scope b) fun _ =>
          startsCount n scope var b stop step k (i + step)
    else nothing

/-- The bounds of a counted loop are evaluated, then the iterations follow. -/
def startsFor (n : Nat) (scope : ScopeId) (var : String) (start stop : Expr) (step : Option Expr)
    (b : Body) : Starting :=
  (one n scope start).andThen (Eval.bound (eval n) scope start "FOR start") fun first =>
    (one n scope stop).andThen (Eval.bound (eval n) scope stop "FOR end") fun last =>
      match step with
      | none => startsCount n scope var b last 1 n first
      | some e =>
        (one n scope e).andThen (Eval.bound (eval n) scope e "FOR step") fun by_ =>
          startsCount n scope var b last by_ n first

/-- The condition of a loop and its body are evaluated in turn. -/
def startsWhile (n : Nat) (scope : ScopeId) (c : Expr) (b : Body) : Nat → Starting
  | 0 => nothing
  | k + 1 =>
    (one n scope c).andThen (Eval.condition (eval n) scope c) fun holds =>
      if holds then
        (one n scope b.expr).andThen (Eval.body (eval n) scope b) fun _ => startsWhile n scope c b k
      else nothing

/-- If the number of arguments is right, the body of a function is evaluated in a new scope. -/
def startsCall (n : Nat) (caller : ScopeId) (callee : Value) (arguments : List Value)
    (p : Position) : Starting :=
  match callee with
  | .function f =>
    nothing.andThen (Eval.lift caller p (checkArity f.displayName f.params.length arguments.length))
      fun _ => nothing.andThen (Eval.record (.called f.displayName arguments.length)) fun _ =>
        nothing.andThen (Eval.enter f.scope f.displayName p (f.params.zip arguments)) fun scope =>
          one n scope f.body.expr
  | _ => nothing

/-- What the evaluation of an expression starts, with the bound that is left for it. -/
def startsExpr (n : Nat) (scope : ScopeId) : Expr → Starting
  | .number _ _ | .text _ _ | .name _ _ | .function _ _ _ _ => nothing
  | .list es _ => startsAll n scope es
  | .assign _ e _ => one n scope e
  | .binary _ l r _ => (one n scope l).andThen (eval n scope l) fun _ => one n scope r
  | .unary _ e _ => one n scope e
  | .ifThen c b rest _ => startsChain n scope (.elif c b rest)
  | .forTo var start stop step b _ => startsFor n scope var start stop step b
  | .whileDo c b _ => startsWhile n scope c b n
  | .call callee es p =>
    (one n scope callee).andThen (eval n scope callee) fun f =>
      (startsAll n scope es).andThen (Eval.all (eval n) scope es) fun vs =>
        startsCall n scope f vs p

namespace Job

/-- Carrying out the first job starts the second one directly. -/
def Starts (j k : Job) : Prop :=
  ∃ n, j.bound = n + 1 ∧ startsExpr n j.scope j.expr j.machine k

/-- The second job is the first one or is started, directly or not, by carrying it out. -/
def During : Job → Job → Prop :=
  Relation.ReflTransGen Starts

/-- The job is a call of the function `f`: callee and arguments have been evaluated, their number is
right, and a scope has been entered. The other job is the evaluation of the body. -/
inductive Calls : Job → Closure → Job → Prop
  | intro {n : Nat} {scope inner : ScopeId} {callee : Expr} {es : List Expr} {p : Position}
    {m m₁ m₂ m₃ : Machine} {f : Closure} {vs : List Value}
    (hcallee : eval n scope callee m = (.value (.function f), m₁))
    (harguments : Eval.all (eval n) scope es m₁ = (.value vs, m₂))
    (harity : vs.length = f.params.length)
    (henter : Eval.enter f.scope f.displayName p (f.params.zip vs)
      (m₂.record (.called f.displayName vs.length)) = (.value inner, m₃)) :
    Calls ⟨n + 1, scope, .call callee es p, m⟩ f ⟨n, inner, f.body.expr, m₃⟩

end Job

/-! ### Faults -/

/-- A fault of the computation is one of its own, in the scope and at one of the nodes, or that of a
job which it starts; and a fault of such a job is never changed. -/
structure Accounts {α : Type} (scope : ScopeId) (nodes : List Expr) (S : Starting) (run : Eval α) :
    Prop where
  /-- The first job that fails decides how the computation ends. -/
  passes_on : ∀ {m j}, S m j → ∀ {fault m'}, j.reply = (.error fault, m') →
    run m = (.error fault, m')
  /-- A fault does not come from nowhere. -/
  origin : ∀ {m fault m'}, run m = (.error fault, m') →
    (fault.scope = scope ∧ ∃ node ∈ nodes, node.position = fault.position) ∨
      ∃ j, S m j ∧ j.reply = (.error fault, m')

section accounts

variable {α β : Type} {n : Nat} {scope : ScopeId} {nodes : List Expr} {S : Starting}

/-- A computation that cannot fail and starts nothing. -/
theorem accounts_quiet {run : Eval α} (h : ∀ m fault m', run m ≠ (.error fault, m')) :
    Accounts scope nodes nothing run :=
  ⟨False.elim, fun hrun => absurd hrun (h _ _ _)⟩

theorem accounts_pure (a : α) : Accounts scope nodes nothing (pure a : Eval α) :=
  accounts_quiet nofun

theorem accounts_exhausted : Accounts scope nodes nothing (exhausted : Eval α) :=
  accounts_quiet nofun

theorem accounts_look (f : Machine → α) : Accounts scope nodes nothing (look f : Eval α) :=
  accounts_quiet nofun

theorem accounts_modify (f : Machine → Machine) :
    Accounts scope nodes nothing (Run.modify f : Eval Unit) :=
  accounts_quiet nofun

theorem accounts_enter (parent : ScopeId) (name : String) (p : Position)
    (bindings : List (String × Value)) :
    Accounts scope nodes nothing (Eval.enter parent name p bindings) := by
  apply accounts_quiet
  intro m fault m' hrun
  cases hrun

/-- A fault at the place of a node. -/
theorem accounts_raise {node : Expr} (hnode : node ∈ nodes) (cause : Cause) :
    Accounts scope nodes nothing (Eval.raise scope node.position cause : Eval α) := by
  refine ⟨False.elim, ?_⟩
  intro m fault m' hrun
  cases hrun
  exact .inl ⟨rfl, node, hnode, rfl⟩

theorem accounts_lift {node : Expr} (hnode : node ∈ nodes) (r : Except Cause α) :
    Accounts scope nodes nothing (Eval.lift scope node.position r) := by
  cases r with
  | ok a => exact accounts_pure a
  | error cause => exact accounts_raise hnode cause

theorem accounts_one (inner : ScopeId) (e : Expr) :
    Accounts scope nodes (one n inner e) (eval n inner e) := by
  refine ⟨?_, ?_⟩
  · rintro m j rfl fault m' hreply
    exact hreply
  · intro m fault m' hrun
    exact .inr ⟨⟨n, inner, e, m⟩, rfl, hrun⟩

theorem Accounts.bind {run : Eval α} {next : α → Eval β} {S' : α → Starting}
    (h : Accounts scope nodes S run) (h' : ∀ a, Accounts scope nodes (S' a) (next a)) :
    Accounts scope nodes (S.andThen run S') (run >>= next) := by
  refine ⟨?_, ?_⟩
  · intro m j hstarts fault m' hreply
    rw [bind_eq_error_iff]
    rcases hstarts with hstarts | ⟨a, m₁, hrun, hstarts⟩
    · exact .inl (h.passes_on hstarts hreply)
    · exact .inr ⟨a, m₁, hrun, (h' a).passes_on hstarts hreply⟩
  · intro m fault m' hrun
    rcases bind_eq_error_iff.mp hrun with hrun | ⟨a, m₁, hrun, hnext⟩
    · rcases h.origin hrun with hown | ⟨j, hstarts, hreply⟩
      · exact .inl hown
      · exact .inr ⟨j, .inl hstarts, hreply⟩
    · rcases (h' a).origin hnext with hown | ⟨j, hstarts, hreply⟩
      · exact .inl hown
      · exact .inr ⟨j, .inr ⟨a, m₁, hrun, hstarts⟩, hreply⟩

/-- What comes after the computation starts nothing. -/
theorem Accounts.bind_last {run : Eval α} {next : α → Eval β} (h : Accounts scope nodes S run)
    (h' : ∀ a, Accounts scope nodes nothing (next a)) : Accounts scope nodes S (run >>= next) := by
  have hbind := h.bind h'
  refine ⟨fun hstarts => hbind.passes_on (.inl hstarts), ?_⟩
  intro m fault m' hrun
  rcases hbind.origin hrun with hown | ⟨j, hstarts | ⟨_, _, _, hnone⟩, hreply⟩
  · exact .inl hown
  · exact .inr ⟨j, hstarts, hreply⟩
  · exact hnone.elim

theorem accounts_all (es : List Expr) :
    Accounts scope nodes (startsAll n scope es) (Eval.all (eval n) scope es) := by
  induction es with
  | nil => exact accounts_pure _
  | cons e es ih =>
    apply (accounts_one scope e).bind
    intro v
    exact ih.bind_last fun vs => accounts_pure _

theorem accounts_condition {c : Expr} (hc : c ∈ nodes) :
    Accounts scope nodes (one n scope c) (Eval.condition (eval n) scope c) :=
  (accounts_one scope c).bind_last fun _ => accounts_lift hc _

theorem accounts_bound {e : Expr} (he : e ∈ nodes) (operation : String) :
    Accounts scope nodes (one n scope e) (Eval.bound (eval n) scope e operation) :=
  (accounts_one scope e).bind_last fun _ => accounts_lift he _

theorem accounts_body (inner : ScopeId) (b : Body) :
    Accounts scope nodes (one n inner b.expr) (Eval.body (eval n) inner b) :=
  (accounts_one inner b.expr).bind_last fun _ => accounts_pure _

theorem Expr.mem_nodes_self (e : Expr) : e ∈ e.nodes := by
  rw [Expr.nodes.eq_def]
  exact List.mem_cons_self

theorem accounts_chain : ∀ c : Chain, c.nodes ⊆ nodes →
    Accounts scope nodes (startsChain n scope c) (Eval.chain (eval n) scope c)
  | .done, _ => accounts_pure _
  | .otherwise b, _ => accounts_body scope b
  | .elif c b rest, hsub => by
    rw [Chain.nodes, List.append_subset, List.append_subset] at hsub
    apply (accounts_condition (hsub.1 c.mem_nodes_self)).bind
    intro holds
    cases holds with
    | true => exact accounts_body scope b
    | false => exact accounts_chain rest hsub.2.2
termination_by structural c => c

theorem accounts_countFrom (var : String) (b : Body) (stop step : Float) (k : Nat) (i : Float)
    (done : List Value) :
    Accounts scope nodes (startsCount n scope var b stop step k i)
      (Eval.countFrom (eval n) scope var b stop step k i done) := by
  induction k generalizing i done with
  | zero => exact accounts_exhausted
  | succ k ih =>
    rw [Eval.countFrom, startsCount]
    split
    · apply (accounts_modify _).bind
      intro _
      apply (accounts_body scope b).bind
      intro v
      exact ih (i + step) (v :: done)
    · exact accounts_pure _

theorem accounts_forTo {var : String} {start stop : Expr} {step : Option Expr} {b : Body}
    {p : Position} (hsub : (Expr.forTo var start stop step b p).nodes ⊆ nodes) :
    Accounts scope nodes (startsFor n scope var start stop step b)
      (Eval.forTo (eval n) n scope var start stop step b p) := by
  have hparts := List.Subset.trans (List.subset_cons_self _ _) hsub
  rw [List.append_subset, List.append_subset, List.append_subset] at hparts
  obtain ⟨hstart, hstop, hstep, -⟩ := hparts
  apply (accounts_bound (hstart start.mem_nodes_self) _).bind
  intro first
  apply (accounts_bound (hstop stop.mem_nodes_self) _).bind
  intro last
  -- with the step known, what remains are the iterations and an entry in the log
  have hrest (by_ : Float) : Accounts scope nodes (startsCount n scope var b last by_ n first) (do
      let values ← Eval.countFrom (eval n) scope var b last by_ n first []
      Eval.record (.forRan var p values.length)
      pure (Value.list values)) := by
    apply (accounts_countFrom var b last by_ n first []).bind_last
    intro values
    exact (accounts_modify _).bind_last fun _ => accounts_pure _
  cases step with
  | none => exact hrest 1
  | some e => exact (accounts_bound (hstep e.mem_nodes_self) _).bind hrest

theorem accounts_repeatWhile {c : Expr} (hc : c ∈ nodes) (b : Body) (k : Nat) (done : List Value) :
    Accounts scope nodes (startsWhile n scope c b k)
      (Eval.repeatWhile (eval n) scope c b k done) := by
  induction k generalizing done with
  | zero => exact accounts_exhausted
  | succ k ih =>
    apply (accounts_condition hc).bind
    intro holds
    cases holds with
    | true => exact (accounts_body scope b).bind fun v => ih (v :: done)
    | false => exact accounts_pure _

/-- A call fails at its own place, if it does not fail in the body of the function. -/
theorem accounts_call (f : Value) (vs : List Value) {node : Expr} (hnode : node ∈ nodes) :
    Accounts scope nodes (startsCall n scope f vs node.position)
      (Eval.call (eval n) scope f vs node.position) := by
  cases f with
  | function f =>
    apply (accounts_lift hnode _).bind
    intro _
    apply (accounts_modify _).bind
    intro _
    apply (accounts_enter _ _ _ _).bind
    intro inner
    exact accounts_body inner f.body
  | builtIn name =>
    show Accounts scope nodes nothing (Eval.callBuiltin scope name vs node.position)
    unfold Eval.callBuiltin
    cases Builtin.ofName? name with
    | none => exact accounts_raise hnode _
    | some b =>
      apply (accounts_lift hnode _).bind_last
      intro _
      apply (accounts_look _).bind_last
      intro reply
      exact (accounts_modify _).bind_last fun _ => accounts_lift hnode _
  | number | text | list => exact accounts_raise hnode _

/-- The fault of an expression is its own or comes from a job that it starts. -/
theorem accounts_expr (n : Nat) (scope : ScopeId) (e : Expr) :
    Accounts scope e.nodes (startsExpr n scope e) (evalOver (eval n) n scope e) := by
  have hself : e ∈ e.nodes := e.mem_nodes_self
  cases e with
  | number value p => exact accounts_pure _
  | text value p => exact accounts_pure _
  | list es p => exact (accounts_all es).bind_last fun _ => accounts_pure _
  | name name p =>
    apply (accounts_look _).bind_last
    intro found
    cases found with
    | some v => exact accounts_pure v
    | none => exact accounts_raise hself _
  | assign name value p =>
    apply (accounts_one scope value).bind_last
    intro v
    exact (accounts_modify _).bind_last fun _ => accounts_pure v
  | binary op l r p =>
    apply (accounts_one scope l).bind
    intro left
    exact (accounts_one scope r).bind_last fun _ => accounts_lift hself _
  | unary op operand p => exact (accounts_one scope operand).bind_last fun _ => accounts_lift hself _
  | ifThen c b rest p => exact accounts_chain (.elif c b rest) (List.subset_cons_self _ _)
  | forTo var start stop step b p => exact accounts_forTo (List.Subset.refl _)
  | whileDo c b p =>
    have hc : c ∈ (Expr.whileDo c b p).nodes :=
      List.mem_cons_of_mem _ (List.mem_append_left _ c.mem_nodes_self)
    apply (accounts_repeatWhile hc b n []).bind_last
    intro values
    exact (accounts_modify _).bind_last fun _ => accounts_pure _
  | function name params b p =>
    apply accounts_quiet
    intro m fault m' hrun
    cases name with
    | none => cases hrun
    | some name => cases hrun
  | call callee es p =>
    apply (accounts_one scope callee).bind
    intro f
    apply (accounts_all es).bind
    intro vs
    exact accounts_call f vs hself

end accounts

theorem Eval.lift_eq_value_iff {α : Type} {scope : ScopeId} {p : Position} {r : Except Cause α}
    {m m' : Machine} {a : α} : Eval.lift scope p r m = (.value a, m') ↔ r = .ok a ∧ m' = m := by
  constructor
  · intro h
    cases r with
    | ok b =>
      cases h
      exact ⟨rfl, rfl⟩
    | error cause => cases h
  · rintro ⟨rfl, rfl⟩
    rfl

theorem checkArity_eq_ok_iff {function : String} {expected found : Nat} {u : Unit} :
    checkArity function expected found = .ok u ↔ found = expected := by
  unfold checkArity
  split
  · simp [*]
  · split
    · simp [*]
    · simp [*]

/-! ### Where the jobs are

All jobs that an expression starts are evaluations of its nodes in its own scope, except that of the
body of a function. -/

/-- One evaluation in the scope that gave a value, or a number bound to a loop variable. -/
def Moves (n : Nat) (scope : ScopeId) (m m' : Machine) : Prop :=
  (∃ e v, eval n scope e m = (.value v, m')) ∨ ∃ name x, m' = m.set scope name (.number x)

/-- The machine after several such moves. -/
abbrev Moved (n : Nat) (scope : ScopeId) : Machine → Machine → Prop :=
  Relation.ReflTransGen (Moves n scope)

/-- The job evaluates one of the nodes in the scope, after other such evaluations. -/
structure Job.Inside (n : Nat) (scope : ScopeId) (nodes : List Expr) (m : Machine) (j : Job) :
    Prop where
  /-- The bound is what is left of it. -/
  bound_eq : j.bound = n
  /-- The scope is the given one. -/
  scope_eq : j.scope = scope
  /-- What is evaluated stands among the nodes. -/
  among : j.expr.nodes ⊆ nodes
  /-- What ran before it. -/
  moved : Moved n scope m j.machine

/-- All jobs that are started are inside. -/
def Starting.Stays (n : Nat) (scope : ScopeId) (nodes : List Expr) (S : Starting) : Prop :=
  ∀ m j, S m j → j.Inside n scope nodes m

/-- To a result, the computation gets by moves only. -/
def Wanders {α : Type} (n : Nat) (scope : ScopeId) (run : Eval α) : Prop :=
  ∀ m a m₁, run m = (.value a, m₁) → Moved n scope m m₁

section inside

variable {α β : Type} {n : Nat} {scope : ScopeId} {nodes : List Expr}

theorem wanders_eval (e : Expr) : Wanders n scope (eval n scope e) :=
  fun _ v _ h => .single (.inl ⟨e, v, h⟩)

theorem wanders_pure (a : α) : Wanders n scope (pure a : Eval α) := by
  intro m b m₁ h
  cases h
  exact .refl

theorem wanders_lift (p : Position) (r : Except Cause α) : Wanders n scope (Eval.lift scope p r) := by
  cases r with
  | ok a => exact wanders_pure a
  | error cause => exact fun _ _ _ h => nomatch h

theorem wanders_bindName (name : String) (x : Float) :
    Wanders n scope (Eval.bindName scope name (.number x)) := by
  intro m _ m₁ h
  cases h
  exact .single (.inr ⟨name, x, rfl⟩)

theorem Wanders.bind {run : Eval α} {next : α → Eval β} (h : Wanders n scope run)
    (h' : ∀ a, Wanders n scope (next a)) : Wanders n scope (run >>= next) := by
  intro m b m₂ hrun
  obtain ⟨a, m₁, hfirst, hnext⟩ := bind_eq_value_iff.mp hrun
  exact (h m a m₁ hfirst).trans (h' a m₁ b m₂ hnext)

theorem wanders_condition (c : Expr) : Wanders n scope (Eval.condition (eval n) scope c) :=
  (wanders_eval c).bind fun _ => wanders_lift _ _

theorem wanders_bound (e : Expr) (operation : String) :
    Wanders n scope (Eval.bound (eval n) scope e operation) :=
  (wanders_eval e).bind fun _ => wanders_lift _ _

theorem wanders_body (b : Body) : Wanders n scope (Eval.body (eval n) scope b) :=
  (wanders_eval b.expr).bind fun _ => wanders_pure _

theorem stays_nothing : nothing.Stays n scope nodes :=
  fun _ _ => False.elim

theorem stays_one {e : Expr} (hsub : e.nodes ⊆ nodes) : (one n scope e).Stays n scope nodes := by
  rintro m j rfl
  exact ⟨rfl, rfl, hsub, .refl⟩

/-- A job that is inside after a few moves is inside. -/
theorem Job.Inside.after {m m₁ : Machine} {j : Job} (h : j.Inside n scope nodes m₁)
    (hmoved : Moved n scope m m₁) : j.Inside n scope nodes m :=
  ⟨h.bound_eq, h.scope_eq, h.among, hmoved.trans h.moved⟩

theorem Starting.Stays.andThen {S : Starting} {run : Eval α} {next : α → Starting}
    (h : S.Stays n scope nodes) (hrun : Wanders n scope run)
    (hnext : ∀ a, (next a).Stays n scope nodes) : (S.andThen run next).Stays n scope nodes := by
  rintro m j (hstarts | ⟨a, m₁, hvalue, hstarts⟩)
  · exact h m j hstarts
  · have hinside := hnext a m₁ j hstarts
    exact hinside.after (hrun m a m₁ hvalue)

theorem stays_all (es : List Expr) (hsub : Expr.nodesOfAll es ⊆ nodes) :
    (startsAll n scope es).Stays n scope nodes := by
  induction es with
  | nil => exact stays_nothing
  | cons e es ih =>
    rw [Expr.nodesOfAll, List.append_subset] at hsub
    exact (stays_one hsub.1).andThen (wanders_eval e) fun _ => ih hsub.2

theorem stays_body {b : Body} (hsub : b.nodes ⊆ nodes) :
    (one n scope b.expr).Stays n scope nodes := by
  rw [Body.nodes_eq] at hsub
  exact stays_one hsub

theorem stays_chain : ∀ c : Chain, c.nodes ⊆ nodes → (startsChain n scope c).Stays n scope nodes
  | .done, _ => stays_nothing
  | .otherwise b, hsub => stays_body hsub
  | .elif c b rest, hsub => by
    rw [Chain.nodes, List.append_subset, List.append_subset] at hsub
    apply (stays_one hsub.1).andThen (wanders_condition c)
    intro holds
    cases holds with
    | true => exact stays_body hsub.2.1
    | false => exact stays_chain rest hsub.2.2
termination_by structural c => c

theorem stays_count {b : Body} (hb : b.nodes ⊆ nodes) (var : String) (stop step : Float) (k : Nat)
    (i : Float) : (startsCount n scope var b stop step k i).Stays n scope nodes := by
  induction k generalizing i with
  | zero => exact stays_nothing
  | succ k ih =>
    rw [startsCount]
    split
    · apply stays_nothing.andThen (wanders_bindName var i)
      intro _
      exact (stays_body hb).andThen (wanders_body b) fun _ => ih (i + step)
    · exact stays_nothing

theorem stays_for {var : String} {start stop : Expr} {step : Option Expr} {b : Body} {p : Position}
    (hsub : (Expr.forTo var start stop step b p).nodes ⊆ nodes) :
    (startsFor n scope var start stop step b).Stays n scope nodes := by
  have hparts := List.Subset.trans (List.subset_cons_self _ _) hsub
  rw [List.append_subset, List.append_subset, List.append_subset] at hparts
  obtain ⟨hstart, hstop, hstep, hbody⟩ := hparts
  apply (stays_one hstart).andThen (wanders_bound start _)
  intro first
  apply (stays_one hstop).andThen (wanders_bound stop _)
  intro last
  cases step with
  | none => exact stays_count hbody var last 1 n first
  | some e =>
    exact (stays_one hstep).andThen (wanders_bound e _) fun by_ =>
      stays_count hbody var last by_ n first

theorem stays_while {c : Expr} {b : Body} (hc : c.nodes ⊆ nodes) (hb : b.nodes ⊆ nodes) (k : Nat) :
    (startsWhile n scope c b k).Stays n scope nodes := by
  induction k with
  | zero => exact stays_nothing
  | succ k ih =>
    apply (stays_one hc).andThen (wanders_condition c)
    intro holds
    cases holds with
    | true => exact (stays_body hb).andThen (wanders_body b) fun _ => ih
    | false => exact stays_nothing

/-- A call starts the body of the function in the scope that it enters. -/
theorem startsCall_function {f : Closure} {vs : List Value} {p : Position} {m : Machine} {j : Job}
    (h : startsCall n scope (.function f) vs p m j) :
    vs.length = f.params.length ∧ ∃ inner m₃,
      Eval.enter f.scope f.displayName p (f.params.zip vs)
        (m.record (.called f.displayName vs.length)) = (.value inner, m₃) ∧
      j = ⟨n, inner, f.body.expr, m₃⟩ := by
  rcases h with hno | ⟨_, m₁, hchecked, hno | ⟨_, m₂, hrecorded, hno | ⟨inner, m₃, hentered, hj⟩⟩⟩
  · exact hno.elim
  · exact hno.elim
  · exact hno.elim
  · obtain ⟨hok, rfl⟩ := Eval.lift_eq_value_iff.mp hchecked
    cases hrecorded
    exact ⟨checkArity_eq_ok_iff.mp hok, inner, m₃, hentered, hj⟩

/-- A job that is started evaluates a node of the expression in its scope, or the body of a function
that the expression calls. -/
theorem inside_or_calls {e : Expr} {m : Machine} {j : Job} (h : startsExpr n scope e m j) :
    j.Inside n scope e.nodes m ∨ ∃ f, Job.Calls ⟨n + 1, scope, e, m⟩ f j := by
  cases e with
  | number | text | name | function => exact h.elim
  | list es p => exact .inl (stays_all es (List.subset_cons_self _ _) m j h)
  | assign name value p => exact .inl (stays_one (List.subset_cons_self _ _) m j h)
  | binary op l r p =>
    have hsub : l.nodes ++ r.nodes ⊆ (Expr.binary op l r p).nodes := List.subset_cons_self _ _
    rw [List.append_subset] at hsub
    exact .inl ((stays_one hsub.1).andThen (wanders_eval l) (fun _ => stays_one hsub.2) m j h)
  | unary op operand p => exact .inl (stays_one (List.subset_cons_self _ _) m j h)
  | ifThen c b rest p =>
    exact .inl (stays_chain (.elif c b rest) (List.subset_cons_self _ _) m j h)
  | forTo var start stop step b p => exact .inl (stays_for (List.Subset.refl _) m j h)
  | whileDo c b p =>
    have hsub : c.nodes ++ b.nodes ⊆ (Expr.whileDo c b p).nodes := List.subset_cons_self _ _
    rw [List.append_subset] at hsub
    exact .inl (stays_while hsub.1 hsub.2 n m j h)
  | call callee es p =>
    have hsub : callee.nodes ++ Expr.nodesOfAll es ⊆ (Expr.call callee es p).nodes :=
      List.subset_cons_self _ _
    rw [List.append_subset] at hsub
    rcases h with hcallee | ⟨f, m₁, hf, hargument | ⟨vs, m₂, hvs, hbody⟩⟩
    · exact .inl (stays_one hsub.1 m j hcallee)
    · exact .inl ((stays_all es hsub.2 m₁ j hargument).after (wanders_eval callee m f m₁ hf))
    · cases f with
      | function f =>
        obtain ⟨harity, inner, m₃, henter, rfl⟩ := startsCall_function hbody
        exact .inr ⟨f, .intro hf hvs harity henter⟩
      | number | text | list | builtIn => exact hbody.elim

end inside

/-- The bound goes down by one from a job to those it starts. -/
theorem Job.Starts.bound_eq {j k : Job} (h : j.Starts k) : j.bound = k.bound + 1 := by
  obtain ⟨n, scope, e, m⟩ := j
  obtain ⟨n, rfl, hstarts⟩ := h
  rcases inside_or_calls hstarts with hinside | ⟨f, hcalls⟩
  · rw [hinside.bound_eq]
  · cases hcalls
    rfl

end LineScript
